import Mathlib.Algebra.Order.Ring.Int
import Mathlib.Data.List.Basic
import OLog.Lib.Double

/-!
Formatted extraction from a character stream in the classic locale, as the
C++ standard library performs it for `operator>>`. White space is skipped,
the longest acceptable run of characters is consumed and converted, and a
conversion that fails stores zero (or the limit it ran past) and sets
`failbit`; from then on every extraction leaves its target alone.

What a numeral's value is rounded to when it is stored as a `double` is a
parameter: `nearestDouble` for the format itself, and `id` where numerals are
taken as exact. Only a magnitude that is too great makes the conversion fail.
-/

namespace OLog.Lib

/-- `throwing` records whether `failbit` is in the stream's exception mask. -/
structure IStream where
  rest : List Char
  fail : Bool
  throwing : Bool

/-- A stream over a text, with the default exception mask. -/
def IStream.ofText (text : List Char) : IStream := ⟨text, false, false⟩

def isSpace (c : Char) : Bool :=
  c = ' ' || c = '\t' || c = '\n' || c = '\x0b' || c = '\x0c' || c = '\r'

/-- The outcome of one conversion: value stored, success, unread characters. -/
structure Scan (τ : Type) where
  value : τ
  ok : Bool
  rest : List Char

def digitsValue (digits : List Char) : Nat :=
  digits.foldl (fun acc c => acc * 10 + (c.toNat - '0'.toNat)) 0

/-- An optional sign; `true` for minus. -/
def scanSign : List Char → Bool × List Char
  | '-' :: rest => (true, rest)
  | '+' :: rest => (false, rest)
  | rest => (false, rest)

def scanDigits (text : List Char) : List Char × List Char :=
  text.span Char.isDigit

def scanWord (text : List Char) : Scan String :=
  let (word, rest) := text.span (fun c => !isSpace c)
  ⟨String.ofList word, true, rest⟩

/-- A signed integer of the range `lo..hi`; values outside are clamped. -/
def scanInt (lo hi : Int) (text : List Char) : Scan Int :=
  let (negative, unsignedText) := scanSign text
  let (digits, rest) := scanDigits unsignedText
  if digits.isEmpty then ⟨0, false, rest⟩
  else
    let magnitude : Int := digitsValue digits
    let value := if negative then -magnitude else magnitude
    if value < lo then ⟨lo, false, rest⟩
    else if hi < value then ⟨hi, false, rest⟩
    else ⟨value, true, rest⟩

/-- An unsigned integer of `w` bits. A minus sign negates modulo `2 ^ w`; a
magnitude out of range stores the greatest value. -/
def scanUInt (w : Nat) (text : List Char) : Scan Int :=
  let (negative, unsignedText) := scanSign text
  let (digits, rest) := scanDigits unsignedText
  if digits.isEmpty then ⟨0, false, rest⟩
  else
    let magnitude : Int := digitsValue digits
    if (2 : Int) ^ w ≤ magnitude then ⟨2 ^ w - 1, false, rest⟩
    else ⟨if negative then (-magnitude) % 2 ^ w else magnitude, true, rest⟩

/-- The optional exponent of a numeral: whether it is well formed, its value
and the unread characters. It is looked for only after a mantissa digit. -/
def scanExponent (hasMantissa : Bool) (text : List Char) : Bool × Int × List Char :=
  match text with
  | c :: rest =>
      if hasMantissa && (c = 'e' || c = 'E') then
        let (negative, unsignedText) := scanSign rest
        let (digits, rest) := scanDigits unsignedText
        (!digits.isEmpty,
          if negative then -(digitsValue digits : Int) else digitsValue digits, rest)
      else (true, 0, text)
  | [] => (true, 0, [])

/-- The optional fraction of a numeral: its digits and the unread characters. -/
def scanFraction : List Char → List Char × List Char
  | '.' :: rest => scanDigits rest
  | text => ([], text)

def scanDouble (round : Rat → Rat) (text : List Char) : Scan Rat :=
  let (negative, unsignedText) := scanSign text
  let (whole, rest) := scanDigits unsignedText
  let (fraction, rest) := scanFraction rest
  let hasMantissa := !(whole.isEmpty && fraction.isEmpty)
  let (exponentOk, exponent, rest) := scanExponent hasMantissa rest
  if !(hasMantissa && exponentOk) then ⟨0, false, rest⟩
  else
    let magnitude : Rat :=
      digitsValue (whole ++ fraction) * (10 : Rat) ^ (exponent - fraction.length)
    if doubleOverflow ≤ magnitude then
      ⟨if negative then -doubleMax else doubleMax, false, rest⟩
    else ⟨if negative then -round magnitude else round magnitude, true, rest⟩

/-- The types for which `operator>>` is used. -/
inductive FieldKind where
  | word
  | int32
  | int64
  | uint32
  | double
  deriving DecidableEq, Repr

abbrev FieldKind.Value : FieldKind → Type
  | .word => String
  | .int32 | .int64 | .uint32 => Int
  | .double => Rat

def FieldKind.scan (round : Rat → Rat) : (kind : FieldKind) → List Char → Scan kind.Value
  | .word => scanWord
  | .int32 => scanInt (-2 ^ 31) (2 ^ 31 - 1)
  | .int64 => scanInt (-2 ^ 63) (2 ^ 63 - 1)
  | .uint32 => scanUInt 32
  | .double => scanDouble round

/-- A member of a record that is filled by extraction. -/
structure StreamField (σ : Type) where
  kind : FieldKind
  get : σ → kind.Value
  set : kind.Value → σ → σ

variable {σ : Type} (round : Rat → Rat)

/-- `stream >> object.field`. -/
def StreamField.extract (field : StreamField σ) (object : σ) (stream : IStream) : σ × IStream :=
  if stream.fail then (object, stream)
  else
    match stream.rest.dropWhile isSpace with
    | [] => (object, {stream with rest := [], fail := true})
    | text =>
        let scan := field.kind.scan round text
        (field.set scan.value object, {stream with rest := scan.rest, fail := !scan.ok})

/-- `stream >> object.field₁ >> object.field₂ >> ...`; the last component says
whether an extraction threw, which ends the chain. -/
def extractAll : List (StreamField σ) → σ → IStream → σ × IStream × Bool
  | [], object, stream => (object, stream, false)
  | field :: fields, object, stream =>
      let (object, stream) := field.extract round object stream
      if stream.fail && stream.throwing then (object, stream, true)
      else extractAll fields object stream

theorem StreamField.extract_throwing (field : StreamField σ) (object : σ) (stream : IStream) :
    (field.extract round object stream).2.throwing = stream.throwing := by
  unfold StreamField.extract
  split_ifs with hfail
  · rfl
  · split <;> rfl

/-- With the default exception mask no extraction throws, whatever the text. -/
theorem extractAll_not_thrown (fields : List (StreamField σ)) (object : σ) (stream : IStream)
    (hmask : stream.throwing = false) :
    (extractAll round fields object stream).2.2 = false := by
  induction fields generalizing object stream with
  | nil => rfl
  | cons field fields ih =>
      have hnext : (field.extract round object stream).2.throwing = false := by
        rw [field.extract_throwing round, hmask]
      simp only [extractAll, hnext, Bool.and_false, Bool.false_eq_true, if_false]
      exact ih _ _ hnext

/-- A property of the record that every value an extraction can store preserves
holds after the whole chain, wherever the chain stops. -/
theorem extractAll_invariant {I : σ → Prop} (fields : List (StreamField σ)) (object : σ)
    (stream : IStream)
    (hset : ∀ field ∈ fields, ∀ text o, I o → I (field.set (field.kind.scan round text).value o))
    (hobject : I object) : I (extractAll round fields object stream).1 := by
  induction fields generalizing object stream with
  | nil => exact hobject
  | cons field fields ih =>
      have hnext : I (field.extract round object stream).1 := by
        unfold StreamField.extract
        split_ifs with hfail
        · exact hobject
        · split
          · exact hobject
          · exact hset field List.mem_cons_self _ _ hobject
      simp only [extractAll]
      split_ifs with hthrown
      · exact hnext
      · exact ih _ _ (fun f hf => hset f (List.mem_cons_of_mem _ hf)) hnext

/-- What an integer conversion stores is in range, whether it succeeds or not. -/
theorem scanInt_range {lo hi : Int} (hlo : lo ≤ 0) (hhi : 0 ≤ hi) (text : List Char) :
    lo ≤ (scanInt lo hi text).value ∧ (scanInt lo hi text).value ≤ hi := by
  unfold scanInt
  dsimp only
  split_ifs <;> constructor <;> dsimp only <;> omega

/-- What a text must be to hold a value of the kind, and only that: between blanks,
which are skipped, it is read to its end without failure, and an unsigned value has
no minus sign, which would leave the type's range. -/
def FieldKind.Holds (kind : FieldKind) (text : List Char) : Prop :=
  let value := text.dropWhile isSpace
  value ≠ [] ∧ (kind.scan id value).ok = true ∧
    (∀ c ∈ (kind.scan id value).rest, isSpace c = true) ∧
    (kind = .uint32 → value.head? ≠ some '-')

instance (kind : FieldKind) (text : List Char) : Decidable (kind.Holds text) :=
  -- over the characters of the rest, not over all characters
  @instDecidableAnd _ _ _ (@instDecidableAnd _ _ _ (@instDecidableAnd _ _
    (List.decidableBAll _ _) _))

end OLog.Lib
