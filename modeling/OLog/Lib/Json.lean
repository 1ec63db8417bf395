import Mathlib.Data.List.Induction
import Mathlib.Tactic.IntervalCases
import OLog.Lib.Codec

/-!
JSON objects whose members are strings and numbers: a reader, and texts that it
reads back. Exponents and escapes by code point are left out, so everything that
is accepted is JSON, but not the other way round.
-/

namespace OLog.Lib.Json

inductive Scalar where
  | text (s : String)
  | number (q : Rat)
  deriving DecidableEq

def blank (c : Char) : Bool := c == ' ' || c == '\t' || c == '\n' || c == '\r'

def skip (s : List Char) : List Char := s.dropWhile blank

def unescape : Char → Option Char
  | '"' => some '"'
  | '\\' => some '\\'
  | '/' => some '/'
  | 'b' => some '\x08'
  | 'f' => some '\x0c'
  | 'n' => some '\n'
  | 'r' => some '\r'
  | 't' => some '\t'
  | _ => none

/-- A character that stands for itself within quotes. -/
def verbatim (c : Char) : Bool := c != '"' && c != '\\' && 32 ≤ c.toNat

/-- The rest of a string behind the opening quote. -/
def scanText : List Char → Option (List Char × List Char)
  | [] => none
  | '"' :: rest => some ([], rest)
  | '\\' :: c :: rest => do
      let escaped ← unescape c
      let (s, rest) ← scanText rest
      pure (escaped :: s, rest)
  | c :: rest =>
      if verbatim c then do
        let (s, rest) ← scanText rest
        pure (c :: s, rest)
      else none

/-- Digits and decimals of a number. No zero comes before another digit. -/
def scanUnsigned (s : List Char) : Option (Rat × List Char) :=
  let (digits, rest) := s.span Char.isDigit
  if digits = [] ∨ digits.head? = some '0' ∧ 1 < digits.length then none
  else
    match rest with
    | '.' :: rest =>
        let (decimals, rest) := rest.span Char.isDigit
        if decimals = [] then none
        else some (digitsValue digits + digitsValue decimals / 10 ^ decimals.length, rest)
    | _ => some (digitsValue digits, rest)

def scanNumber : List Char → Option (Rat × List Char)
  | '-' :: s => (scanUnsigned s).map (fun (q, rest) => (-q, rest))
  | s => scanUnsigned s

def scanScalar : List Char → Option (Scalar × List Char)
  | '"' :: s => (scanText s).map (fun (text, rest) => (.text (String.ofList text), rest))
  | s => (scanNumber s).map (fun (q, rest) => (.number q, rest))

def scanMember : List Char → Option ((String × Scalar) × List Char)
  | '"' :: s => do
      let (key, s) ← scanText s
      match skip s with
      | ':' :: s =>
          let (value, s) ← scanScalar (skip s)
          pure ((String.ofList key, value), s)
      | _ => none
  | _ => none

def scanMembers : Nat → List Char → Option (List (String × Scalar) × List Char)
  | 0, _ => none
  | fuel + 1, s => do
      let (member, s) ← scanMember (skip s)
      match skip s with
      | ',' :: s =>
          let (members, s) ← scanMembers fuel s
          pure (member :: members, s)
      | '\x7d' :: s => pure ([member], s)
      | _ => none

/-- The members of an object, if the text is one. Each member takes more than one
character, so the length of the text is fuel enough. -/
def parse (text : String) : Option (List (String × Scalar)) :=
  match skip text.toList with
  | '\x7b' :: s =>
      match skip s with
      | '\x7d' :: rest => if skip rest = [] then some [] else none
      | _ => do
          let (members, rest) ← scanMembers text.length s
          if skip rest = [] then pure members else none
  | _ => none

/-- A value as it is printed. -/
inductive Printed where
  | text (s : String)
  | int (n : Int)
  | fixed (q : Rat)

def Printed.chars : Printed → List Char
  | .text s => '"' :: (s.toList ++ ['"'])
  | .int n => (showInt n).toList
  | .fixed q => (showFixed q).toList

def Printed.value : Printed → Scalar
  | .text s => .text s
  | .int n => .number n
  | .fixed q => .number (sixDecimals q)

/-- Nothing in the string would have to be escaped. -/
def Verbatim (s : String) : Prop := ∀ c ∈ s.toList, verbatim c = true

instance (s : String) : Decidable (Verbatim s) :=
  -- characters are finitely many, but it is the string that is to be searched
  List.decidableBAll _ s.toList

def Printed.Readable : Printed → Prop
  | .text s => Verbatim s
  | _ => True

/-- A member, with the blanks before its key and before its value. -/
structure Member where
  lead : List Char
  key : String
  gap : List Char
  value : Printed

def Member.chars (m : Member) : List Char :=
  m.lead ++ '"' :: (m.key.toList ++ '"' :: ':' :: (m.gap ++ m.value.chars))

def Member.field (m : Member) : String × Scalar := (m.key, m.value.value)

/-- Everything around the value is as it should be. -/
structure Member.Framed (m : Member) : Prop where
  lead : ∀ c ∈ m.lead, blank c = true
  key : Verbatim m.key
  gap : ∀ c ∈ m.gap, blank c = true

theorem Member.framed_mk {lead gap : List Char} {key : String} (value : Printed)
    (h : lead.all blank = true ∧ Verbatim key ∧ gap.all blank = true) :
    Framed ⟨lead, key, gap, value⟩ :=
  ⟨List.all_eq_true.mp h.1, h.2.1, List.all_eq_true.mp h.2.2⟩

def membersText : List Member → List Char
  | [] => ['\x7d']
  | [m] => m.chars ++ ['\x7d']
  | m :: members => m.chars ++ ',' :: membersText members

def objectText (members : List Member) : List Char := '\x7b' :: membersText members

theorem skip_append {lead : List Char} (hlead : ∀ c ∈ lead, blank c = true) {c : Char}
    (hc : blank c = false) (rest : List Char) : skip (lead ++ c :: rest) = c :: rest := by
  unfold skip
  rw [List.dropWhile_append_of_pos hlead, List.dropWhile_cons_of_neg (by simp [hc])]

theorem scanText_append {word : List Char} (h : ∀ c ∈ word, verbatim c = true)
    (rest : List Char) : scanText (word ++ '"' :: rest) = some (word, rest) := by
  induction word with
  | nil => rfl
  | cons c word ih =>
      obtain ⟨hc, hword⟩ := List.forall_mem_cons.mp h
      have hquote : c ≠ '"' := by
        rintro rfl
        exact absurd hc (by decide)
      have hslash : c ≠ '\\' := by
        rintro rfl
        exact absurd hc (by decide)
      rw [List.cons_append, scanText]
      · rw [if_pos hc, ih hword]
        rfl
      · exact fun heq => hquote heq
      · exact fun d tail heq _ => hslash heq

/-- What the first character of a string may be. -/
theorem scanText_cases {c : Char} {s word rest : List Char}
    (h : scanText (c :: s) = some (word, rest)) :
    (c = '"' ∧ word = []) ∨
    (c = '\\' ∧ ∃ d s', s = d :: s' ∧ ∃ e word', unescape d = some e ∧ word = e :: word' ∧
      scanText s' = some (word', rest)) ∨
    (verbatim c = true ∧ ∃ word', word = c :: word' ∧ scanText s = some (word', rest)) := by
  unfold scanText at h
  split at h
  · cases ‹_ :: _ = []›
  · rename_i heq
    cases heq
    cases h
    exact Or.inl ⟨rfl, rfl⟩
  · rename_i heq
    cases heq
    simp only [Option.bind_eq_bind, Option.bind_eq_some_iff, Option.pure_def, Option.some.injEq,
      Prod.mk.injEq, Prod.exists] at h
    obtain ⟨e, he, word', rest', hs, rfl, rfl⟩ := h
    exact Or.inr (Or.inl ⟨rfl, _, _, rfl, e, word', he, rfl, hs⟩)
  · rename_i heq
    cases heq
    split_ifs at h with hc
    simp only [Option.bind_eq_bind, Option.bind_eq_some_iff, Option.pure_def, Option.some.injEq,
      Prod.mk.injEq, Prod.exists] at h
    obtain ⟨word', rest', hs, rfl, rfl⟩ := h
    exact Or.inr (Or.inr ⟨hc, word', rfl, hs⟩)

theorem unescape_backslash {c : Char} (h : unescape c = some '\\') : c = '\\' := by
  unfold unescape at h
  split at h <;> first | rfl | exact absurd h (by decide)

/-- Two backslashes are read as one, so what is read never has one more than the
word itself. -/
theorem scanText_backslashes {word rest rest' : List Char} (n : Nat) :
    scanText (word ++ '"' :: rest) ≠ some (List.replicate (n + 1) '\\' ++ word, rest') := by
  induction word using List.twoStepInduction generalizing n with
  | nil =>
      intro h
      cases h
  | singleton c =>
      intro h
      obtain ⟨-, hnil⟩ | ⟨rfl, d, s, heq, e, word, he, hword, -⟩ | ⟨hc, word, hword, -⟩ :=
        scanText_cases h
      · cases hnil
      · obtain ⟨rfl, rfl⟩ := List.cons.inj heq
        cases he
        cases hword
      · obtain ⟨rfl, -⟩ := List.cons.inj hword
        exact absurd hc (by decide)
  | cons_cons c d tail ih _ =>
      intro h
      obtain ⟨-, hnil⟩ | ⟨rfl, d', s, heq, e, word, he, hword, hs⟩ | ⟨hc, word, hword, -⟩ :=
        scanText_cases h
      · cases hnil
      · obtain ⟨rfl, rfl⟩ := List.cons.inj heq
        obtain ⟨rfl, rfl⟩ := List.cons.inj hword
        obtain rfl := unescape_backslash he
        have hmove : List.replicate n '\\' ++ '\\' :: '\\' :: tail =
            List.replicate (n + 1 + 1) '\\' ++ tail := by
          simp [List.replicate_succ']
        exact ih (n + 1) (hs.trans (congrArg (fun word => some (word, rest')) hmove))
      · obtain ⟨rfl, -⟩ := List.cons.inj hword
        exact absurd hc (by decide)

theorem verbatim_of_scanText {word rest rest' : List Char}
    (h : scanText (word ++ '"' :: rest) = some (word, rest')) : ∀ c ∈ word, verbatim c = true := by
  induction word with
  | nil => exact fun c hc => absurd hc List.not_mem_nil
  | cons c word ih =>
      obtain ⟨-, hnil⟩ | ⟨rfl, d, s, heq, e, word', he, hword, hs⟩ | ⟨hc, word', hword, hs⟩ :=
        scanText_cases h
      · cases hnil
      · obtain ⟨rfl, rfl⟩ := List.cons.inj hword
        obtain rfl := unescape_backslash he
        cases word with
        | nil => cases heq
        | cons d word =>
            obtain ⟨rfl, rfl⟩ := List.cons.inj heq
            exact absurd hs (scanText_backslashes 0)
      · obtain ⟨-, rfl⟩ := List.cons.inj hword
        exact List.forall_mem_cons.mpr ⟨hc, ih hs⟩

theorem head_toDigits {n : Nat} (h : 0 < n) : (Nat.toDigits 10 n).head? ≠ some '0' := by
  induction n using Nat.strong_induction_on with
  | _ n ih =>
      rcases lt_or_ge n 10 with hsmall | hlarge
      · rw [Nat.toDigits_of_lt_base hsmall]
        interval_cases n <;> decide
      · rw [Nat.toDigits_of_base_le (by decide) hlarge]
        have hrest := ih (n / 10) (by omega) (by omega)
        cases hdigits : Nat.toDigits 10 (n / 10) with
        | nil => exact absurd hdigits Nat.toDigits_ne_nil
        | cons d digits =>
            rw [hdigits] at hrest
            exact hrest

/-- The numeral of a natural number is allowed. -/
theorem toDigits_allowed (n : Nat) : ¬ (Nat.toDigits 10 n = [] ∨
    (Nat.toDigits 10 n).head? = some '0' ∧ 1 < (Nat.toDigits 10 n).length) := by
  rintro (hnil | ⟨hhead, hlong⟩)
  · exact Nat.toDigits_ne_nil hnil
  · rcases Nat.eq_zero_or_pos n with rfl | hpos
    · exact absurd hlong (by decide)
    · exact head_toDigits hpos hhead

/-- A value ends where its member does. -/
def Ends (rest : List Char) : Prop := ∃ c tail, rest = c :: tail ∧ (c = ',' ∨ c = '\x7d')

theorem Ends.head_false {rest : List Char} (h : Ends rest) {p : Char → Bool}
    (hcomma : p ',' = false) (hbrace : p '\x7d' = false) : ∀ c ∈ rest.head?, p c = false := by
  obtain ⟨c, tail, rfl, hc | hc⟩ := h
  · rintro d hd
    cases hd
    rw [hc, hcomma]
  · rintro d hd
    cases hd
    rw [hc, hbrace]

theorem scanUnsigned_toDigits (n : Nat) {rest : List Char} (hrest : Ends rest) :
    scanUnsigned (Nat.toDigits 10 n ++ rest) = some ((n : Rat), rest) := by
  have hdigits : ∀ c ∈ Nat.toDigits 10 n, c.isDigit = true := fun c => isDigit_of_mem_toDigits
  unfold scanUnsigned
  rw [span_append_stop hdigits (hrest.head_false rfl rfl)]
  dsimp only
  rw [if_neg (toDigits_allowed n), digitsValue_toDigits]
  obtain ⟨c, tail, rfl, rfl | rfl⟩ := hrest <;> rfl

theorem scanUnsigned_fixed (whole : Nat) {decimals rest : List Char} (hne : decimals ≠ [])
    (hdecimals : ∀ c ∈ decimals, c.isDigit = true) (hrest : Ends rest) :
    scanUnsigned (Nat.toDigits 10 whole ++ '.' :: (decimals ++ rest)) =
      some ((whole : Rat) + digitsValue decimals / 10 ^ decimals.length, rest) := by
  have hdigits : ∀ c ∈ Nat.toDigits 10 whole, c.isDigit = true := fun c => isDigit_of_mem_toDigits
  have hpoint : ∀ c ∈ ('.' :: (decimals ++ rest)).head?, c.isDigit = false := by
    intro c hc
    cases hc
    rfl
  unfold scanUnsigned
  rw [span_append_stop hdigits hpoint]
  dsimp only
  rw [if_neg (toDigits_allowed whole), digitsValue_toDigits]
  simp only [span_append_stop hdecimals (hrest.head_false rfl rfl)]
  exact if_neg hne

/-- A sign in front. The numeral begins with a digit. -/
theorem scanNumber_signText (negative : Bool) {digits rest tail : List Char} {q : Rat}
    (hne : digits ≠ []) (hdigits : ∀ c ∈ digits, c.isDigit = true)
    (h : scanUnsigned (digits ++ rest) = some (q, tail)) :
    scanNumber (signText negative ++ (digits ++ rest)) =
      some (if negative then -q else q, tail) := by
  cases negative with
  | true =>
      change (scanUnsigned (digits ++ rest)).map _ = _
      rw [h]
      rfl
  | false =>
      cases digits with
      | nil => exact absurd rfl hne
      | cons c digits =>
          have hminus : c ≠ '-' := by
            rintro rfl
            exact absurd (hdigits '-' List.mem_cons_self) (by decide)
          change scanNumber (c :: (digits ++ rest)) = _
          rw [scanNumber]
          · exact h
          · exact fun s heq => hminus (List.cons.inj heq).1

theorem scanNumber_showInt (n : Int) {rest : List Char} (hrest : Ends rest) :
    scanNumber ((showInt n).toList ++ rest) = some ((n : Rat), rest) := by
  have hvalue : (if decide (n < 0) = true then -(n.natAbs : Rat) else n.natAbs) = n := by
    split_ifs with hneg
    · rw [Nat.cast_natAbs, abs_of_neg (of_decide_eq_true hneg), Int.cast_neg, neg_neg]
    · have habs : 0 ≤ n := by simpa using hneg
      rw [Nat.cast_natAbs, abs_of_nonneg habs]
  rw [toList_showInt, List.append_assoc, scanNumber_signText _ Nat.toDigits_ne_nil
    (fun c => isDigit_of_mem_toDigits) (scanUnsigned_toDigits n.natAbs hrest), hvalue]

theorem scanNumber_showFixed (q : Rat) {rest : List Char} (hrest : Ends rest) :
    scanNumber ((showFixed q).toList ++ rest) = some (sixDecimals q, rest) := by
  let decimals := (padded 6 (millionths q % 10 ^ 6)).toList
  have hlength : decimals.length = 6 := by
    rw [String.length_toList]
    exact length_padded (by decide) (Nat.mod_lt _ (by decide))
  have hne : decimals ≠ [] := fun hnil => absurd hlength (by rw [hnil]; decide)
  have hscan := scanUnsigned_fixed (millionths q / 10 ^ 6) hne (fun c => padded_digits) hrest
  have hvalue : ((millionths q / 10 ^ 6 : Nat) : Rat) +
      digitsValue decimals / 10 ^ decimals.length = (millionths q : Rat) / 10 ^ 6 := by
    have hsplit : ((millionths q / 10 ^ 6 * 10 ^ 6 + millionths q % 10 ^ 6 : Nat) : Rat) =
        millionths q := congrArg _ (Nat.div_add_mod' _ _)
    rw [hlength, digitsValue_padded, ← hsplit]
    push_cast
    ring
  rw [hvalue] at hscan
  rw [toList_showFixed, List.append_assoc, List.append_assoc]
  refine (scanNumber_signText _ Nat.toDigits_ne_nil
    (fun c => isDigit_of_mem_toDigits) hscan).trans ?_
  simp only [sixDecimals, decide_eq_true_eq]

/-- A numeral begins with a digit or with its sign. -/
theorem numeral_head (negative : Bool) {digits : List Char} (hne : digits ≠ [])
    (hdigits : ∀ c ∈ digits, c.isDigit = true) (rest : List Char) :
    ∃ c tail, signText negative ++ (digits ++ rest) = c :: tail ∧ (c = '-' ∨ c.isDigit = true) := by
  cases negative with
  | true => exact ⟨'-', digits ++ rest, rfl, Or.inl rfl⟩
  | false =>
      obtain ⟨c, tail, rfl⟩ := List.exists_cons_of_ne_nil hne
      exact ⟨c, tail ++ rest, rfl, Or.inr (hdigits c List.mem_cons_self)⟩

theorem showInt_head (n : Int) :
    ∃ c tail, (showInt n).toList = c :: tail ∧ (c = '-' ∨ c.isDigit = true) := by
  have hdigits : ∀ c ∈ Nat.toDigits 10 n.natAbs, c.isDigit = true :=
    fun c => isDigit_of_mem_toDigits
  have h := numeral_head (n < 0) Nat.toDigits_ne_nil hdigits []
  rwa [List.append_nil, ← toList_showInt] at h

theorem showFixed_head (q : Rat) :
    ∃ c tail, (showFixed q).toList = c :: tail ∧ (c = '-' ∨ c.isDigit = true) := by
  rw [toList_showFixed]
  exact numeral_head (q < 0) Nat.toDigits_ne_nil (fun c => isDigit_of_mem_toDigits) _

theorem not_blank_of_numeral {c : Char} (h : c = '-' ∨ c.isDigit = true) : blank c = false := by
  rw [Bool.eq_false_iff]
  intro hblank
  simp only [blank, Bool.or_eq_true, beq_iff_eq] at hblank
  rcases hblank with ((rfl | rfl) | rfl) | rfl <;> exact absurd h (by decide)

theorem verbatim_of_isDigit {c : Char} (h : c.isDigit = true) : verbatim c = true := by
  have hquote : c ≠ '"' := by
    rintro rfl
    exact absurd h (by decide)
  have hslash : c ≠ '\\' := by
    rintro rfl
    exact absurd h (by decide)
  have hcontrol : 32 ≤ c.toNat := by
    have hlow : 48 ≤ c.toNat := by
      simp only [Char.isDigit, Bool.and_eq_true, decide_eq_true_eq] at h
      exact UInt32.le_iff_toNat_le.mp h.1
    omega
  simp [verbatim, hquote, hslash, hcontrol]

theorem verbatim_signText (negative : Bool) : ∀ c ∈ signText negative, verbatim c = true := by
  cases negative with
  | false => exact List.forall_mem_nil _
  | true => exact List.forall_mem_singleton.mpr rfl

theorem verbatim_showInt (n : Int) : Verbatim (showInt n) := by
  intro c hc
  rw [toList_showInt] at hc
  rcases List.mem_append.mp hc with hc | hc
  · exact verbatim_signText _ c hc
  · exact verbatim_of_isDigit (isDigit_of_mem_toDigits hc)

theorem verbatim_showFixed (q : Rat) : Verbatim (showFixed q) := by
  intro c hc
  rw [toList_showFixed] at hc
  rcases List.mem_append.mp hc with hc | hc
  · exact verbatim_signText _ c hc
  rcases List.mem_append.mp hc with hc | hc
  · exact verbatim_of_isDigit (isDigit_of_mem_toDigits hc)
  rcases List.mem_cons.mp hc with rfl | hc
  · rfl
  · exact verbatim_of_isDigit (padded_digits hc)

theorem Verbatim.append {s t : String} (hs : Verbatim s) (ht : Verbatim t) :
    Verbatim (s ++ t) := by
  intro c hc
  rw [String.toList_append] at hc
  rcases List.mem_append.mp hc with hc | hc
  · exact hs c hc
  · exact ht c hc

/-- No number is mistaken for a string. -/
theorem scanScalar_numeral {digits rest tail : List Char} {q : Rat}
    (hhead : ∃ c s, digits = c :: s ∧ (c = '-' ∨ c.isDigit = true))
    (h : scanNumber (digits ++ rest) = some (q, tail)) :
    scanScalar (digits ++ rest) = some (.number q, tail) := by
  obtain ⟨c, s, rfl, hc⟩ := hhead
  have hquote : c ≠ '"' := by
    rintro rfl
    exact absurd hc (by decide)
  rw [List.cons_append, scanScalar, ← List.cons_append, h]
  · rfl
  · exact fun s heq => hquote (List.cons.inj heq).1

theorem Printed.scanScalar_chars {v : Printed} (h : v.Readable) {rest : List Char}
    (hrest : Ends rest) : scanScalar (v.chars ++ rest) = some (v.value, rest) := by
  cases v with
  | text s =>
      change (scanText (s.toList ++ ['"'] ++ rest)).map _ = _
      rw [List.append_assoc, List.singleton_append, scanText_append h]
      simp [Printed.value]
  | int n => exact scanScalar_numeral (showInt_head n) (scanNumber_showInt n hrest)
  | fixed q => exact scanScalar_numeral (showFixed_head q) (scanNumber_showFixed q hrest)

theorem Printed.head_chars (v : Printed) : ∃ c tail, v.chars = c :: tail ∧ blank c = false := by
  cases v with
  | text s => exact ⟨'"', _, rfl, rfl⟩
  | int n =>
      obtain ⟨c, tail, heq, hc⟩ := showInt_head n
      exact ⟨c, tail, heq, not_blank_of_numeral hc⟩
  | fixed q =>
      obtain ⟨c, tail, heq, hc⟩ := showFixed_head q
      exact ⟨c, tail, heq, not_blank_of_numeral hc⟩

theorem Printed.readable_of_scanScalar {v : Printed} {rest rest' : List Char}
    (h : scanScalar (v.chars ++ rest) = some (v.value, rest')) : v.Readable := by
  cases v with
  | text s =>
      change (scanText (s.toList ++ ['"'] ++ rest)).map _ = _ at h
      rw [List.append_assoc, List.singleton_append, Option.map_eq_some_iff] at h
      obtain ⟨⟨word, tail⟩, hscan, heq⟩ := h
      have hword : word = s.toList := by
        have hs : String.ofList word = s := Scalar.text.inj (congrArg Prod.fst heq)
        rw [← hs, String.toList_ofList]
      rw [hword] at hscan
      exact verbatim_of_scanText hscan
  | int n => exact trivial
  | fixed q => exact trivial

namespace Member

variable {m : Member}

/-- What is left of a member is its value. -/
theorem scanMember_chars (h : m.Framed) (rest : List Char) :
    scanMember (skip (m.chars ++ rest)) =
      (scanScalar (m.value.chars ++ rest)).map (fun (value, rest) => ((m.key, value), rest)) := by
  have hgap : skip (m.gap ++ (m.value.chars ++ rest)) = m.value.chars ++ rest := by
    obtain ⟨c, tail, heq, hc⟩ := m.value.head_chars
    rw [heq, List.cons_append, skip_append h.gap hc]
  have hcolon : ∀ s, skip (':' :: s) = ':' :: s := fun s => rfl
  have hchars : m.chars ++ rest = m.lead ++ '"' ::
      (m.key.toList ++ '"' :: ':' :: (m.gap ++ (m.value.chars ++ rest))) := by
    simp [Member.chars]
  rw [hchars, skip_append h.lead rfl]
  cases hscan : scanScalar (m.value.chars ++ rest) <;>
    simp [scanMember, scanText_append h.key, hcolon, hgap, hscan]

theorem scanMember_readable (h : m.Framed) (hvalue : m.value.Readable) {rest : List Char}
    (hrest : Ends rest) : scanMember (skip (m.chars ++ rest)) = some (m.field, rest) := by
  rw [scanMember_chars h, Printed.scanScalar_chars hvalue hrest]
  rfl

theorem readable_of_scanMember (h : m.Framed) {rest rest' : List Char}
    (hscan : scanMember (skip (m.chars ++ rest)) = some (m.field, rest')) : m.value.Readable := by
  rw [scanMember_chars h, Option.map_eq_some_iff] at hscan
  obtain ⟨⟨value, tail⟩, hvalue, heq⟩ := hscan
  obtain ⟨hfield, -⟩ := Prod.mk.inj heq
  obtain ⟨-, rfl⟩ := Prod.mk.inj hfield
  exact Printed.readable_of_scanScalar hvalue

end Member

theorem scanMembers_cases {fuel : Nat} {s rest : List Char} {field : String × Scalar}
    {fields : List (String × Scalar)}
    (h : scanMembers (fuel + 1) s = some (field :: fields, rest)) :
    ∃ s', scanMember (skip s) = some (field, s') ∧
      (∀ t, skip s' = ',' :: t → scanMembers fuel t = some (fields, rest)) := by
  unfold scanMembers at h
  simp only [Option.bind_eq_bind, Option.bind_eq_some_iff, Prod.exists] at h
  obtain ⟨key, value, s', hmember, h⟩ := h
  split at h
  · rename_i heq
    simp only [Option.bind_eq_some_iff, Option.pure_def, Option.some.injEq, Prod.mk.injEq,
      Prod.exists, List.cons.injEq] at h
    obtain ⟨fields', rest', hfields, ⟨hfield, rfl⟩, rfl⟩ := h
    refine ⟨s', hfield ▸ hmember, fun t ht => ?_⟩
    rw [heq] at ht
    obtain ⟨-, rfl⟩ := List.cons.inj ht
    exact hfields
  · rename_i heq
    simp only [Option.pure_def, Option.some.injEq, Prod.mk.injEq, List.cons.injEq] at h
    refine ⟨s', h.1.1 ▸ hmember, fun t ht => ?_⟩
    rw [heq] at ht
    cases ht
  · cases h

theorem scanMembers_readable {members : List Member} (hne : members ≠ [])
    (h : ∀ m ∈ members, m.Framed) (hvalues : ∀ m ∈ members, m.value.Readable) {fuel : Nat}
    (hfuel : members.length ≤ fuel) :
    scanMembers fuel (membersText members) = some (members.map Member.field, []) := by
  induction members generalizing fuel with
  | nil => exact absurd rfl hne
  | cons m members ih =>
      obtain ⟨hm, hmembers⟩ := List.forall_mem_cons.mp h
      obtain ⟨hvalue, hvalues⟩ := List.forall_mem_cons.mp hvalues
      cases fuel with
      | zero => exact absurd hfuel (by simp)
      | succ fuel =>
          cases members with
          | nil =>
              have hread := Member.scanMember_readable hm hvalue ⟨'\x7d', [], rfl, Or.inr rfl⟩
              have hbrace : skip ['\x7d'] = ['\x7d'] := rfl
              simp [membersText, scanMembers, hread, hbrace]
          | cons m' members =>
              have hread := Member.scanMember_readable hm hvalue
                ⟨',', membersText (m' :: members), rfl, Or.inl rfl⟩
              have hcomma : ∀ s, skip (',' :: s) = ',' :: s := fun s => rfl
              have hrest := ih (List.cons_ne_nil _ _) hmembers hvalues
                (Nat.le_of_succ_le_succ hfuel)
              simp [membersText, scanMembers, hread, hcomma, hrest]

theorem readable_of_scanMembers {members : List Member} (h : ∀ m ∈ members, m.Framed)
    {fuel : Nat} {rest : List Char}
    (hscan : scanMembers fuel (membersText members) = some (members.map Member.field, rest)) :
    ∀ m ∈ members, m.value.Readable := by
  induction members generalizing fuel with
  | nil => exact fun m hm => absurd hm List.not_mem_nil
  | cons m members ih =>
      obtain ⟨hm, hmembers⟩ := List.forall_mem_cons.mp h
      cases fuel with
      | zero => cases hscan
      | succ fuel =>
          cases members with
          | nil =>
              obtain ⟨s, hmember, -⟩ := scanMembers_cases hscan
              exact List.forall_mem_singleton.mpr (Member.readable_of_scanMember hm hmember)
          | cons m' members =>
              obtain ⟨s, hmember, hnext⟩ := scanMembers_cases hscan
              rw [membersText] at hmember
              · have hvalue := Member.readable_of_scanMember hm hmember
                have hends : Ends (',' :: membersText (m' :: members)) := ⟨',', _, rfl, Or.inl rfl⟩
                rw [Member.scanMember_readable hm hvalue hends] at hmember
                cases hmember
                exact List.forall_mem_cons.mpr ⟨hvalue, ih hmembers (hnext _ rfl)⟩
              · nofun

theorem length_le_membersText (members : List Member) :
    members.length ≤ (membersText members).length := by
  induction members with
  | nil => exact Nat.zero_le _
  | cons m members ih =>
      cases members with
      | nil => simp [membersText]
      | cons m' members =>
          simp only [membersText, List.length_append, List.length_cons] at ih ⊢
          omega

theorem skip_membersText {members : List Member} (hne : members ≠ [])
    (h : ∀ m ∈ members, m.Framed) : ∃ s, skip (membersText members) = '"' :: s := by
  obtain ⟨m, members, rfl⟩ := List.exists_cons_of_ne_nil hne
  have hfirst : ∃ rest, membersText (m :: members) = m.lead ++ '"' :: rest := by
    cases members with
    | nil => exact ⟨_, by rw [membersText, Member.chars, List.append_assoc, List.cons_append]⟩
    | cons m' members =>
        exact ⟨_, by rw [membersText, Member.chars, List.append_assoc, List.cons_append]; nofun⟩
  obtain ⟨rest, heq⟩ := hfirst
  exact ⟨rest, by rw [heq, skip_append (h m List.mem_cons_self).lead rfl]⟩

/-- An object is read back, member by member, exactly if nothing in its values had
to be escaped. -/
theorem parse_objectText_iff {members : List Member} (hne : members ≠ [])
    (h : ∀ m ∈ members, m.Framed) :
    parse (String.ofList (objectText members)) = some (members.map Member.field) ↔
      ∀ m ∈ members, m.value.Readable := by
  obtain ⟨s, hs⟩ := skip_membersText hne h
  have hopen : skip (objectText members) = '\x7b' :: membersText members := rfl
  constructor
  · intro hparse
    simp only [parse, String.toList_ofList, hopen, hs] at hparse
    obtain ⟨⟨fields, rest⟩, hscan, hfields⟩ := Option.bind_eq_some_iff.mp hparse
    split_ifs at hfields
    cases hfields
    exact readable_of_scanMembers h hscan
  · intro hvalues
    have hfuel : members.length ≤ (objectText members).length :=
      (length_le_membersText members).trans (Nat.le_succ _)
    have hread := scanMembers_readable hne h hvalues hfuel
    have hnil : skip [] = [] := rfl
    simp [parse, hopen, hs, hread, hnil]

end OLog.Lib.Json
