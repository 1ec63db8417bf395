import Mathlib.Data.List.TakeDrop
import Mathlib.Tactic.Linarith
import Mathlib.Tactic.Ring
import Mathlib.Tactic.Positivity
import OLog.Lib.Decimal
import OLog.Lib.IStream

/-!
Printing and reading back. A number that `printf` prints is read by `>>` as the
number itself, up to the six decimals of `%f`; so a record whose members are
printed one after the other, with a separator between them, is read back
member by member. Numerals are exact here.
-/

namespace OLog.Lib

theorem span_append_stop {α : Type} {p : α → Bool} {word rest : List α}
    (hword : ∀ c ∈ word, p c = true) (hrest : ∀ c ∈ rest.head?, p c = false) :
    (word ++ rest).span p = (word, rest) := by
  have hstop : rest.takeWhile p = [] ∧ rest.dropWhile p = rest := by
    cases rest with
    | nil => exact ⟨rfl, rfl⟩
    | cons c rest =>
        have hc := hrest c rfl
        exact ⟨by simp [hc], by simp [hc]⟩
  rw [List.span_eq_takeWhile_dropWhile, List.takeWhile_append_of_pos hword,
    List.dropWhile_append_of_pos hword, hstop.1, hstop.2, List.append_nil]

/-- The part in front of the first separator can be told from what follows. -/
theorem append_sep_inj {α : Type} [DecidableEq α] {sep : α} {word word' rest rest' : List α}
    (hword : sep ∉ word) (hword' : sep ∉ word') (h : word ++ sep :: rest = word' ++ sep :: rest') :
    word = word' ∧ rest = rest' := by
  have hstop : ∀ {w r : List α}, sep ∉ w →
      (w ++ sep :: r).span (fun c => decide (c ≠ sep)) = (w, sep :: r) := by
    intro w r hw
    apply span_append_stop
    · intro c hc
      exact decide_eq_true (fun heq => hw (heq ▸ hc))
    · rintro c ⟨⟩
      simp
  have hpair := (hstop hword).symm.trans ((congrArg _ h).trans (hstop hword'))
  obtain ⟨hfirst, hrest⟩ := Prod.mk.inj hpair
  exact ⟨hfirst, (List.cons.inj hrest).2⟩

/-- A word without the separator does not reach across one. -/
theorem infix_append_sep_iff {α : Type} {sep : α} {word first second : List α}
    (hword : sep ∉ word) :
    word <:+: first ++ sep :: second ↔ word <:+: first ∨ word <:+: second := by
  constructor
  · rintro ⟨before, after, heq⟩
    rw [List.append_assoc] at heq
    obtain ⟨rest, rfl, htail⟩ | ⟨rest, rfl, htail⟩ := List.append_eq_append_iff.mp heq
    · -- the word begins in the first part, and cannot go on past the separator
      obtain ⟨rest', rfl, -⟩ | ⟨rest', rfl, hsep⟩ := List.append_eq_append_iff.mp htail
      · exact Or.inl ⟨before, rest', by simp⟩
      · cases rest' with
        | nil => exact Or.inl ⟨before, [], by simp⟩
        | cons c rest' =>
            obtain ⟨rfl, -⟩ := List.cons.inj hsep
            exact absurd (by simp) hword
    · cases rest with
      | nil =>
          cases word with
          | nil => exact Or.inl List.nil_infix
          | cons c word =>
              obtain ⟨rfl, -⟩ := List.cons.inj htail
              exact absurd List.mem_cons_self hword
      | cons c rest =>
          obtain ⟨-, rfl⟩ := List.cons.inj htail
          exact Or.inr ⟨rest, after, by simp⟩
  · rintro (h | h)
    · exact h.trans (List.prefix_append first (sep :: second)).isInfix
    · exact h.trans ((List.suffix_cons sep second).trans (List.suffix_append first _)).isInfix

theorem digitsValue_eq (digits : List Char) :
    digitsValue digits = Nat.ofDigitChars 10 digits 0 := by
  have hstep : (fun (acc : Nat) (c : Char) => acc * 10 + (c.toNat - '0'.toNat)) =
      fun acc c => 10 * acc + (c.toNat - '0'.toNat) := by
    funext acc c
    rw [Nat.mul_comm]
  unfold digitsValue
  rw [hstep, Nat.ofDigitChars_eq_foldl]

@[simp] theorem digitsValue_toDigits (n : Nat) : digitsValue (Nat.toDigits 10 n) = n := by
  rw [digitsValue_eq, Nat.ofDigitChars_ten_toDigits]

theorem digitsValue_append (first second : List Char) :
    digitsValue (first ++ second) =
      digitsValue first * 10 ^ second.length + digitsValue second := by
  simp only [digitsValue_eq]
  rw [Nat.ofDigitChars_append, Nat.ofDigitChars_eq_ofDigitChars_zero, Nat.mul_comm]

theorem isDigit_of_mem_toDigits {n : Nat} {c : Char} (h : c ∈ Nat.toDigits 10 n) :
    c.isDigit = true :=
  Nat.isDigit_of_mem_toDigits (by decide) (by decide) h

/-- The zeros that pad a numeral and its digits. -/
theorem toList_padded (width n : Nat) : (padded width n).toList =
    List.replicate (width - (Nat.toDigits 10 n).length) '0' ++ Nat.toDigits 10 n := by
  have hdigits : (toString n).toList = Nat.toDigits 10 n := Nat.toList_repr
  simp only [padded, String.toList_append, String.toList_ofList, hdigits,
    ← String.length_toList]

theorem padded_digits {width n : Nat} {c : Char} (h : c ∈ (padded width n).toList) :
    c.isDigit = true := by
  rw [toList_padded] at h
  rcases List.mem_append.mp h with h | h
  · rw [List.eq_of_mem_replicate h]
    rfl
  · exact isDigit_of_mem_toDigits h

theorem digitsValue_padded (width n : Nat) : digitsValue (padded width n).toList = n := by
  have hzeros : ∀ k, digitsValue (List.replicate k '0') = 0 := by
    intro k
    rw [digitsValue_eq, Nat.ofDigitChars_replicate_zero, Nat.mul_zero]
  rw [toList_padded, digitsValue_append, hzeros, digitsValue_toDigits, Nat.zero_mul, Nat.zero_add]

/-- What may come after a value in a stream. -/
def Stops (rest : List Char) : Prop := rest = [] ∨ ∃ tail, rest = ' ' :: tail

theorem Stops.head_false {rest : List Char} (h : Stops rest) {p : Char → Bool}
    (hblank : p ' ' = false) : ∀ c ∈ rest.head?, p c = false := by
  rcases h with rfl | ⟨tail, rfl⟩
  · intro c hc
    cases hc
  · intro c hc
    cases hc
    exact hblank

/-- The sign that is printed. -/
def signText (negative : Bool) : List Char := if negative then ['-'] else []

theorem scanSign_signText (negative : Bool) {digits rest : List Char} (hne : digits ≠ [])
    (hdigits : ∀ c ∈ digits, c.isDigit = true) :
    scanSign (signText negative ++ (digits ++ rest)) = (negative, digits ++ rest) := by
  cases negative with
  | true => rfl
  | false =>
      obtain ⟨c, tail, rfl⟩ := List.exists_cons_of_ne_nil hne
      have hc := hdigits c List.mem_cons_self
      have hminus : c ≠ '-' := by
        rintro rfl
        cases hc
      have hplus : c ≠ '+' := by
        rintro rfl
        cases hc
      change scanSign (c :: (tail ++ rest)) = _
      unfold scanSign
      split
      · rename_i heq
        exact absurd (List.cons.inj heq).1 hminus
      · rename_i heq
        exact absurd (List.cons.inj heq).1 hplus
      · rfl

theorem scanDigits_append {digits rest : List Char} (hdigits : ∀ c ∈ digits, c.isDigit = true)
    (hrest : ∀ c ∈ rest.head?, c.isDigit = false) :
    scanDigits (digits ++ rest) = (digits, rest) :=
  span_append_stop hdigits hrest

theorem toList_showInt (n : Int) :
    (showInt n).toList = signText (n < 0) ++ Nat.toDigits 10 n.natAbs := by
  unfold showInt signText
  rw [Int.toString_eq_repr, Int.repr_eq_if]
  rcases lt_or_ge n 0 with hneg | hnonneg
  · have habs : (-n).toNat = n.natAbs := by omega
    rw [if_neg (not_le.mpr hneg), String.toList_append, Nat.toList_repr, habs]
    simp [hneg]
  · have habs : n.toNat = n.natAbs := by omega
    rw [if_pos hnonneg, Nat.toList_repr, habs]
    simp [not_lt.mpr hnonneg]

/-- An integer in range is read back. -/
theorem scanInt_showInt {lo hi n : Int} (hlo : lo ≤ n) (hhi : n ≤ hi) {rest : List Char}
    (hrest : Stops rest) : scanInt lo hi ((showInt n).toList ++ rest) = ⟨n, true, rest⟩ := by
  have hdigits : ∀ c ∈ Nat.toDigits 10 n.natAbs, c.isDigit = true :=
    fun c => isDigit_of_mem_toDigits
  have hne : Nat.toDigits 10 n.natAbs ≠ [] := Nat.toDigits_ne_nil
  have hvalue : (if decide (n < 0) = true then -(n.natAbs : Int) else n.natAbs) = n := by
    split_ifs with hneg <;> simp at hneg <;> omega
  simp only [scanInt, toList_showInt, List.append_assoc, scanSign_signText _ hne hdigits,
    scanDigits_append hdigits (hrest.head_false rfl), List.isEmpty_iff, hne, if_false,
    digitsValue_toDigits, hvalue, not_lt.mpr hlo, not_lt.mpr hhi]

theorem showInt_injective : Function.Injective showInt := by
  intro n m h
  have hn := scanInt_showInt (min_le_left n m) (le_max_left n m) (Or.inl rfl : Stops [])
  have hm := scanInt_showInt (min_le_right n m) (le_max_right n m) (Or.inl rfl : Stops [])
  rw [h, hm] at hn
  exact (congrArg Scan.value hn).symm

theorem scanUInt_showInt {w : Nat} {n : Int} (hlo : 0 ≤ n) (hhi : n < 2 ^ w) {rest : List Char}
    (hrest : Stops rest) : scanUInt w ((showInt n).toList ++ rest) = ⟨n, true, rest⟩ := by
  have hdigits : ∀ c ∈ Nat.toDigits 10 n.natAbs, c.isDigit = true :=
    fun c => isDigit_of_mem_toDigits
  have hne : Nat.toDigits 10 n.natAbs ≠ [] := Nat.toDigits_ne_nil
  have hvalue : (n.natAbs : Int) = n := by omega
  have hsign : decide (n < 0) = false := by simpa using hlo
  simp only [scanUInt, toList_showInt, List.append_assoc, scanSign_signText _ hne hdigits,
    scanDigits_append hdigits (hrest.head_false rfl), List.isEmpty_iff, hne, if_false,
    digitsValue_toDigits, hvalue, not_le.mpr hhi, hsign, Bool.false_eq_true]

/-- The number that `%f` prints. -/
def sixDecimals (q : Rat) : Rat :=
  if q < 0 then -((millionths q : Rat) / 10 ^ 6) else (millionths q : Rat) / 10 ^ 6

theorem sixDecimals_mono {a b : Rat} (ha : 0 ≤ a) (h : a ≤ b) :
    sixDecimals a ≤ sixDecimals b := by
  have hb := ha.trans h
  have hround : millionths a ≤ millionths b := by
    unfold millionths
    rw [abs_of_nonneg ha, abs_of_nonneg hb]
    apply Int.toNat_le_toNat
    apply roundHalfEven_mono
    linarith
  have hcast : (millionths a : Rat) ≤ millionths b := by exact_mod_cast hround
  rw [sixDecimals, sixDecimals, if_neg (not_lt.mpr ha), if_neg (not_lt.mpr hb)]
  linarith

@[simp] theorem sixDecimals_natCast (n : Nat) : sixDecimals n = n := by
  have hnonneg : (0 : Rat) ≤ n := by positivity
  have hcast : (n : Rat) * 10 ^ 6 = (((n * 10 ^ 6 : Nat) : Int) : Rat) := by
    push_cast
    rfl
  rw [sixDecimals, if_neg (not_lt.mpr hnonneg), millionths, abs_of_nonneg hnonneg, hcast,
    roundHalfEven_intCast, Int.toNat_natCast]
  push_cast
  ring

theorem toList_showFixed (q : Rat) : (showFixed q).toList =
    signText (q < 0) ++ (Nat.toDigits 10 (millionths q / 10 ^ 6) ++
      '.' :: (padded 6 (millionths q % 10 ^ 6)).toList) := by
  have hwhole : (toString (millionths q / 10 ^ 6)).toList = Nat.toDigits 10 _ := Nat.toList_repr
  change ((if q < 0 then "-" else "") ++ toString (millionths q / 10 ^ 6) ++ "." ++
    padded 6 (millionths q % 10 ^ 6)).toList = _
  rw [String.toList_append, String.toList_append, String.toList_append, hwhole]
  by_cases hneg : q < 0
  · simp [signText, hneg]
  · simp [signText, hneg]

theorem millionths_lt {q : Rat} (h : |q| ≤ doubleMax) :
    (millionths q : Rat) / 10 ^ 6 < doubleOverflow := by
  have hround := roundHalfEven_le (|q| * 10 ^ 6)
  have hnonneg : 0 ≤ |q| * 10 ^ 6 := by positivity
  have hmillionths : (millionths q : Rat) ≤ |q| * 10 ^ 6 + 1 := by
    rcases le_or_gt 0 (roundHalfEven (|q| * 10 ^ 6)) with hpos | hneg
    · have hcast : ((millionths q : Int) : Rat) = (roundHalfEven (|q| * 10 ^ 6) : Int) := by
        rw [millionths, Int.toNat_of_nonneg hpos]
      rw [Int.cast_natCast] at hcast
      rw [hcast]
      exact hround
    · have hzero : millionths q = 0 := Int.toNat_of_nonpos hneg.le
      rw [hzero]
      push_cast
      linarith
  have hgap : doubleMax + 1 < doubleOverflow := by
    unfold doubleMax doubleOverflow
    exact_mod_cast (by decide +kernel : (2 ^ 53 - 1) * 2 ^ 971 + 1 < 2 ^ 1024 - 2 ^ 970)
  rw [div_lt_iff₀ (by norm_num)]
  nlinarith

/-- A finite number is read back as the six decimals that were printed. -/
theorem scanDouble_showFixed {q : Rat} (hfinite : |q| ≤ doubleMax) {rest : List Char}
    (hrest : Stops rest) :
    scanDouble id ((showFixed q).toList ++ rest) = ⟨sixDecimals q, true, rest⟩ := by
  let whole := Nat.toDigits 10 (millionths q / 10 ^ 6)
  let fraction := (padded 6 (millionths q % 10 ^ 6)).toList
  have hwhole : ∀ c ∈ whole, c.isDigit = true := fun c => isDigit_of_mem_toDigits
  have hne : whole ≠ [] := Nat.toDigits_ne_nil
  have hfraction : ∀ c ∈ fraction, c.isDigit = true := fun c => padded_digits
  have hpoint : ∀ c ∈ ('.' :: (fraction ++ rest)).head?, c.isDigit = false := by
    intro c hc
    cases hc
    rfl
  have hlength : fraction.length = 6 := by
    rw [String.length_toList]
    exact length_padded (by decide) (Nat.mod_lt _ (by decide))
  have hexponent : scanExponent true rest = (true, 0, rest) := by
    rcases hrest with rfl | ⟨tail, rfl⟩
    · rfl
    · rfl
  have hdigits : digitsValue (whole ++ fraction) = millionths q := by
    rw [digitsValue_append, hlength, digitsValue_toDigits, digitsValue_padded]
    exact Nat.div_add_mod' _ _
  have hpow : (10 : Rat) ^ ((0 : Int) - (6 : Nat)) = 1 / 10 ^ 6 := by norm_num
  have hrange : ¬ doubleOverflow ≤ (millionths q : Rat) / 10 ^ 6 :=
    not_le.mpr (millionths_lt hfinite)
  have htext : (showFixed q).toList ++ rest =
      signText (q < 0) ++ (whole ++ '.' :: (fraction ++ rest)) := by
    rw [toList_showFixed, List.append_assoc, List.append_assoc]
    rfl
  have hmantissa : whole.isEmpty = false := by simpa using hne
  simp only [scanDouble, htext, scanSign_signText _ hne hwhole, scanDigits_append hwhole hpoint,
    scanFraction, scanDigits_append hfraction (hrest.head_false rfl), hmantissa, Bool.false_and,
    Bool.not_false, hexponent, hdigits, hlength, hpow, hrange, Bool.and_self, Bool.not_true,
    Bool.false_eq_true, if_false, decide_eq_true_eq, id_eq, sixDecimals, mul_one_div]

namespace FieldKind

/-- What is printed for a value: `%s`, `%i` or `%f`. -/
def print : (kind : FieldKind) → kind.Value → String
  | .word, v => v
  | .int32, v | .int64, v | .uint32, v => showInt v
  | .double, v => showFixed v

/-- The value that the printed text stands for. -/
def printed : (kind : FieldKind) → kind.Value → kind.Value
  | .word, v => v
  | .int32, v | .int64, v | .uint32, v => v
  | .double, v => sixDecimals v

/-- Characters that occur in a printed value separate nothing. -/
def Plain (text : List Char) : Prop := text ≠ [] ∧ ∀ c ∈ text, isSpace c = false ∧ c ≠ ','

instance (text : List Char) : Decidable (Plain text) :=
  -- characters are finitely many, but it is the text that is to be searched
  @instDecidableAnd _ _ _ (List.decidableBAll _ text)

/-- The value is one of the type, and a word has no separator in it. -/
def Fits : (kind : FieldKind) → kind.Value → Prop
  | .word, v => Plain v.toList
  | .int32, v => -2 ^ 31 ≤ v ∧ v ≤ 2 ^ 31 - 1
  | .int64, v => -2 ^ 63 ≤ v ∧ v ≤ 2 ^ 63 - 1
  | .uint32, v => 0 ≤ v ∧ v < 2 ^ 32
  | .double, v => |v| ≤ doubleMax

instance : (kind : FieldKind) → (v : kind.Value) → Decidable (kind.Fits v)
  | .word, v => inferInstanceAs (Decidable (Plain v.toList))
  | .int32, v => inferInstanceAs (Decidable (-2 ^ 31 ≤ v ∧ v ≤ 2 ^ 31 - 1))
  | .int64, v => inferInstanceAs (Decidable (-2 ^ 63 ≤ v ∧ v ≤ 2 ^ 63 - 1))
  | .uint32, v => inferInstanceAs (Decidable (0 ≤ v ∧ v < 2 ^ 32))
  | .double, v => inferInstanceAs (Decidable (|v| ≤ doubleMax))

theorem scan_print (kind : FieldKind) {v : kind.Value} (h : kind.Fits v) {rest : List Char}
    (hrest : Stops rest) :
    kind.scan id ((kind.print v).toList ++ rest) = ⟨kind.printed v, true, rest⟩ := by
  cases kind with
  | word =>
      have hword : ∀ c ∈ v.toList, (!isSpace c) = true := by
        intro c hc
        rw [(h.2 c hc).1]
        rfl
      change scanWord (v.toList ++ rest) = _
      simp only [scanWord, span_append_stop hword (hrest.head_false rfl), String.ofList_toList]
      rfl
  | int32 =>
      change scanInt (-2 ^ 31) (2 ^ 31 - 1) ((showInt v).toList ++ rest) = _
      exact scanInt_showInt h.1 h.2 hrest
  | int64 =>
      change scanInt (-2 ^ 63) (2 ^ 63 - 1) ((showInt v).toList ++ rest) = _
      exact scanInt_showInt h.1 h.2 hrest
  | uint32 =>
      change scanUInt 32 ((showInt v).toList ++ rest) = _
      exact scanUInt_showInt h.1 h.2 hrest
  | double =>
      change scanDouble id ((showFixed v).toList ++ rest) = _
      exact scanDouble_showFixed h hrest

theorem plain_of_isDigit {c : Char} (h : c.isDigit = true) : isSpace c = false ∧ c ≠ ',' := by
  refine ⟨?_, ?_⟩
  · by_contra hspace
    simp only [isSpace, Bool.not_eq_false, Bool.or_eq_true, decide_eq_true_eq] at hspace
    rcases hspace with ((((rfl | rfl) | rfl) | rfl) | rfl) | rfl <;> cases h
  · rintro rfl
    cases h

theorem plain_signText (negative : Bool) :
    ∀ c ∈ signText negative, isSpace c = false ∧ c ≠ ',' := by
  cases negative with
  | false => exact List.forall_mem_nil _
  | true => exact (by decide : Plain ['-']).2

theorem plain_showInt (n : Int) : Plain (showInt n).toList := by
  rw [toList_showInt]
  refine ⟨?_, ?_⟩
  · exact List.append_ne_nil_of_right_ne_nil _ Nat.toDigits_ne_nil
  · intro c hc
    rcases List.mem_append.mp hc with hc | hc
    · exact plain_signText _ c hc
    · exact plain_of_isDigit (isDigit_of_mem_toDigits hc)

theorem plain_showFixed (q : Rat) : Plain (showFixed q).toList := by
  rw [toList_showFixed]
  refine ⟨?_, ?_⟩
  · refine List.append_ne_nil_of_right_ne_nil _ ?_
    exact List.append_ne_nil_of_left_ne_nil Nat.toDigits_ne_nil _
  · intro c hc
    rcases List.mem_append.mp hc with hc | hc
    · exact plain_signText _ c hc
    rcases List.mem_append.mp hc with hc | hc
    · exact plain_of_isDigit (isDigit_of_mem_toDigits hc)
    rcases List.mem_cons.mp hc with rfl | hc
    · decide
    · exact plain_of_isDigit (padded_digits hc)

theorem plain_print (kind : FieldKind) {v : kind.Value} (h : kind.Fits v) :
    Plain (kind.print v).toList := by
  cases kind with
  | word => exact h
  | int32 | int64 | uint32 => exact plain_showInt v
  | double => exact plain_showFixed v

end FieldKind

section Records

variable {σ : Type}

/-- The members of a record, printed in the order of the list. -/
def printFields (fields : List (StreamField σ)) (object : σ) : List String :=
  fields.map (fun field => field.kind.print (field.get object))

/-- The members of `target` with the values for which the printed texts stand,
put into a record in the order of the list. -/
def setPrinted (fields : List (StreamField σ)) (object target : σ) : σ :=
  fields.foldl (fun o field => field.set (field.kind.printed (field.get object)) o) target

theorem extract_print (field : StreamField σ) (object target : σ) {lead rest : List Char}
    (hfits : field.kind.Fits (field.get object)) (hlead : ∀ c ∈ lead, isSpace c = true)
    (hrest : Stops rest) (throwing : Bool) :
    field.extract id target
        ⟨lead ++ ((field.kind.print (field.get object)).toList ++ rest), false, throwing⟩ =
      (field.set (field.kind.printed (field.get object)) target, ⟨rest, false, throwing⟩) := by
  obtain ⟨hne, hplain⟩ := field.kind.plain_print hfits
  obtain ⟨c, tail, htext⟩ := List.exists_cons_of_ne_nil hne
  have hc : isSpace c = false := (hplain c (htext ▸ List.mem_cons_self)).1
  have hscan := field.kind.scan_print hfits hrest
  have hdrop : (lead ++ ((field.kind.print (field.get object)).toList ++ rest)).dropWhile isSpace =
      c :: (tail ++ rest) := by
    rw [List.dropWhile_append_of_pos hlead, htext, List.cons_append, List.dropWhile_cons_of_neg]
    simp [hc]
  rw [htext, List.cons_append] at hscan
  simp only [StreamField.extract, hdrop, hscan, Bool.false_eq_true, if_false, Bool.not_true]

/-- A piece is followed by a separator, or it is the last one. -/
theorem intercalate_cons {α : Type} (sep : α) (piece : List α) (pieces : List (List α)) :
    ∃ lead, (lead = [] ∧ pieces = [] ∨ lead = [sep]) ∧
      [sep].intercalate (piece :: pieces) = piece ++ (lead ++ [sep].intercalate pieces) := by
  cases pieces with
  | nil => exact ⟨[], Or.inl ⟨rfl, rfl⟩, by simp⟩
  | cons next pieces => exact ⟨[sep], Or.inr rfl, by simp⟩

/-- A record that is printed with blanks between its members is read back. The
induction is on the members; the blank in front of each but the first is
skipped. -/
theorem extractAll_print (fields : List (StreamField σ)) (object target : σ)
    (hfits : ∀ field ∈ fields, field.kind.Fits (field.get object)) {lead : List Char}
    (hlead : ∀ c ∈ lead, isSpace c = true) (throwing : Bool) :
    (extractAll id fields target ⟨lead ++ [' '].intercalate
        ((printFields fields object).map String.toList), false, throwing⟩).1 =
      setPrinted fields object target := by
  induction fields generalizing target lead with
  | nil => rfl
  | cons field fields ih =>
      obtain ⟨hfield, hfields⟩ := List.forall_mem_cons.mp hfits
      let pieces := (printFields fields object).map String.toList
      obtain ⟨next, hnext, htext⟩ :=
        intercalate_cons ' ' (field.kind.print (field.get object)).toList pieces
      have hspaces : ∀ c ∈ next, isSpace c = true := by
        rcases hnext with ⟨rfl, _⟩ | rfl
        · exact List.forall_mem_nil _
        · exact List.forall_mem_singleton.mpr rfl
      have hstops : Stops (next ++ [' '].intercalate pieces) := by
        rcases hnext with ⟨rfl, hnone⟩ | rfl
        · exact Or.inl (by rw [hnone]; rfl)
        · exact Or.inr ⟨_, rfl⟩
      have hextract := extract_print field object target hfield hlead hstops throwing
      have hrest := ih (field.set (field.kind.printed (field.get object)) target) hfields hspaces
      change (extractAll id (field :: fields) target ⟨lead ++ [' '].intercalate
        ((field.kind.print (field.get object)).toList :: pieces), false, throwing⟩).1 = _
      rw [htext, extractAll, hextract]
      exact hrest

/-- Exchanging the separator, which occurs in no piece. -/
theorem map_intercalate {α : Type} {f : α → α} {sep sep' : α} (hsep : f sep = sep')
    {pieces : List (List α)} (hpieces : ∀ piece ∈ pieces, ∀ c ∈ piece, f c = c) :
    ([sep].intercalate pieces).map f = [sep'].intercalate pieces := by
  induction pieces with
  | nil => rfl
  | cons piece pieces ih =>
      obtain ⟨hpiece, hpieces⟩ := List.forall_mem_cons.mp hpieces
      have hsame : piece.map f = piece := (List.map_congr_left hpiece).trans (List.map_id _)
      cases pieces with
      | nil => simpa using hsame
      | cons next pieces => simp [hsame, hsep, ih hpieces]

end Records

end OLog.Lib
