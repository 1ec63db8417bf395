import Mathlib.Algebra.Order.Floor.Ring
import Mathlib.Data.Nat.Log
import Mathlib.Tactic.Linarith
import OLog.Lib.Printf

/-!
Printed numbers. The conversions of `printf` have no width of their own: an
integer takes as many characters as it has digits, and a fixed-point number
its integer digits, the point and six decimals.
-/

namespace OLog.Lib

/-- The number of decimal digits. -/
def numeralWidth (n : Nat) : Nat := Nat.log 10 n + 1

def intWidth (n : Int) : Nat := (if n < 0 then 1 else 0) + numeralWidth n.natAbs

/-- The millionths that `%f` prints. -/
def millionths (q : Rat) : Nat := (roundHalfEven (|q| * 10 ^ 6)).toNat

def fixedWidth (q : Rat) : Nat :=
  (if q < 0 then 1 else 0) + numeralWidth (millionths q / 10 ^ 6) + 7

/-- A zero shows its sign bit too. -/
def doubleWidth (minus : Bool) (q : Rat) : Nat :=
  (if minus && q = 0 then 1 else 0) + fixedWidth q

theorem numeralWidth_le {n k : Nat} (hk : 0 < k) (h : n < 10 ^ k) : numeralWidth n ≤ k := by
  rcases Nat.eq_zero_or_pos n with rfl | hpos
  · rw [numeralWidth, Nat.log_zero_right]
    exact hk
  · have hlog : Nat.log 10 n < k := (Nat.log_lt_iff_lt_pow (by decide) (by omega)).mpr h
    unfold numeralWidth
    omega

theorem intWidth_le {n : Int} {k : Nat} (hk : 0 < k) (h : n.natAbs < 10 ^ k) :
    intWidth n ≤ k + 1 := by
  have hwidth := numeralWidth_le hk h
  unfold intWidth
  split_ifs <;> omega

theorem length_repr (n : Nat) : n.repr.length = numeralWidth n := by
  apply le_antisymm
  · exact (Nat.length_repr_le_iff (Nat.succ_pos _)).mpr (Nat.lt_pow_succ_log_self (by decide) n)
  · have hpos : 0 < n.repr.length := Nat.length_repr_pos
    exact numeralWidth_le hpos ((Nat.length_repr_le_iff hpos).mp le_rfl)

theorem length_showInt (n : Int) : (showInt n).length = intWidth n := by
  unfold showInt intWidth
  rw [Int.toString_eq_repr, Int.repr_eq_if]
  rcases lt_or_ge n 0 with hneg | hnonneg
  · have habs : (-n).toNat = n.natAbs := by omega
    rw [if_neg (not_le.mpr hneg), if_pos hneg, String.length_append, length_repr, habs]
    rfl
  · have habs : n.toNat = n.natAbs := by omega
    rw [if_pos hnonneg, if_neg (not_lt.mpr hnonneg), length_repr, habs, Nat.zero_add]

theorem length_padded {width n : Nat} (hwidth : 0 < width) (h : n < 10 ^ width) :
    (padded width n).length = width := by
  have hdigits : (toString n).length ≤ width := (Nat.length_repr_le_iff hwidth).mpr h
  simp only [padded, String.length_append, String.length_ofList, List.length_replicate]
  omega

theorem length_showFixed (q : Rat) : (showFixed q).length = fixedWidth q := by
  have hfraction : (padded 6 (millionths q % 10 ^ 6)).length = 6 :=
    length_padded (by decide) (Nat.mod_lt _ (by decide))
  have hwhole : (toString (millionths q / 10 ^ 6)).length = numeralWidth _ := length_repr _
  have hsign : (if q < 0 then "-" else "").length = if q < 0 then 1 else 0 := by
    split_ifs <;> rfl
  change ((if q < 0 then "-" else "") ++ toString (millionths q / 10 ^ 6) ++ "." ++
    padded 6 (millionths q % 10 ^ 6)).length = _
  simp only [String.length_append, hsign, hwhole, hfraction]
  rfl

theorem length_showDouble (minus : Bool) (q : Rat) :
    (showDouble minus q).length = doubleWidth minus q := by
  have hminus : "-".length = 1 := rfl
  unfold showDouble doubleWidth
  split_ifs
  · rw [String.length_append, length_showFixed, hminus]
  · rw [length_showFixed, Nat.zero_add]

/-- The length of a text put together from pieces. -/
theorem length_foldl_append (first : String) (pieces : List String) :
    (pieces.foldl (· ++ ·) first).length = first.length + (pieces.map String.length).sum := by
  induction pieces generalizing first with
  | nil => rfl
  | cons piece pieces ih =>
      rw [List.foldl_cons, ih, String.length_append, List.map_cons, List.sum_cons]
      omega

theorem roundHalfEven_bounds (q : Rat) : ⌊q⌋ ≤ roundHalfEven q ∧ roundHalfEven q ≤ ⌊q⌋ + 1 := by
  unfold roundHalfEven
  dsimp only
  split_ifs <;> omega

theorem roundHalfEven_mono {a b : Rat} (h : a ≤ b) : roundHalfEven a ≤ roundHalfEven b := by
  have ha := roundHalfEven_bounds a
  have hb := roundHalfEven_bounds b
  have hfloor : ⌊a⌋ ≤ ⌊b⌋ := Int.floor_mono h
  rcases hfloor.lt_or_eq with hlt | heq
  · omega
  · -- in the same unit the excess decides
    have hexcess : a - ⌊a⌋ ≤ b - ⌊b⌋ := by
      rw [heq]
      linarith
    unfold roundHalfEven
    dsimp only
    rw [heq] at hexcess ⊢
    split_ifs <;> first | omega | (exfalso; linarith)

theorem roundHalfEven_intCast (n : Int) : roundHalfEven n = n := by
  simp [roundHalfEven]

theorem roundHalfEven_le (q : Rat) : (roundHalfEven q : Rat) ≤ q + 1 := by
  have hfloor := Int.floor_le q
  unfold roundHalfEven
  dsimp only
  split_ifs <;> push_cast <;> linarith

/-- A number below a power of ten, by more than the rounding, has at most that
many integer digits. -/
theorem fixedWidth_le {q : Rat} {k : Nat} (hk : 0 < k) (hnonneg : 0 ≤ q)
    (h : q + 1 ≤ 10 ^ k) : fixedWidth q ≤ k + 7 := by
  have hround : (roundHalfEven (q * 10 ^ 6) : Rat) ≤ ((10 ^ k * 10 ^ 6 - 1 : Int) : Rat) := by
    have hle := roundHalfEven_le (q * 10 ^ 6)
    push_cast
    linarith
  have hint : roundHalfEven (q * 10 ^ 6) ≤ 10 ^ k * 10 ^ 6 - 1 := by exact_mod_cast hround
  have hpow : ((10 ^ k : Nat) : Int) = 10 ^ k := by push_cast; rfl
  have hmillionths : millionths q < 10 ^ k * 10 ^ 6 := by
    unfold millionths
    rw [abs_of_nonneg hnonneg]
    have hpos : 0 < 10 ^ k := Nat.pow_pos (by decide)
    omega
  have hwidth := numeralWidth_le hk (Nat.div_lt_of_lt_mul (Nat.mul_comm _ _ ▸ hmillionths))
  unfold fixedWidth
  rw [if_neg (not_lt.mpr hnonneg)]
  omega

end OLog.Lib
