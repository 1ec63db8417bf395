import OLog.Lib.Double

/-!
The conversions of `printf` that a program needs to print integers and finite
floating-point numbers.
-/

namespace OLog.Lib

/-- `%d` and `%lld`. -/
def showInt (n : Int) : String := toString n

/-- A natural number in decimal, padded with zeros to `width` digits. -/
def padded (width n : Nat) : String :=
  let digits := toString n
  String.ofList (List.replicate (width - digits.length) '0') ++ digits

/-- `%f` and `%lf`: the integer digits, a point and six decimals. -/
def showFixed (q : Rat) : String :=
  let millionths := (roundHalfEven (|q| * 10 ^ 6)).toNat
  (if q < 0 then "-" else "") ++
    toString (millionths / 10 ^ 6) ++ "." ++ padded 6 (millionths % 10 ^ 6)

example : showFixed (-1 / 2) = "-0.500000" := by decide +kernel

/-- The same for a double whose sign bit is set if `minus`: a zero shows it too. -/
def showDouble (minus : Bool) (q : Rat) : String :=
  if minus && q = 0 then "-" ++ showFixed q else showFixed q

theorem showDouble_false (q : Rat) : showDouble false q = showFixed q := rfl

end OLog.Lib
