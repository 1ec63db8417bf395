import Mathlib.Algebra.Order.Group.Defs
import Mathlib.Algebra.Order.Ring.Int
import Mathlib.Data.Finset.Basic
import Mathlib.Data.Set.Finite.Basic
import Mathlib.Data.Set.Finite.Range
import Mathlib.Order.Monotone.Basic
import Mathlib.Tactic.Common

/-!
Arithmetic progressions in an ordered group and their first gap relative to a
finite set: the first term, counted from a given one, that the set lacks. A
finite set always leaves such a gap, because the progression is injective.
-/

namespace OLog.Lib

variable {α : Type*} [AddCommGroup α]

/-- Term `n` of the progression that starts at `a` and advances by `d`. -/
def tick (a d : α) (n : ℕ) : α := a + n • d

@[simp] theorem tick_zero (a d : α) : tick a d 0 = a := by
  simp [tick]

theorem tick_succ (a d : α) (n : ℕ) : tick a d (n + 1) = tick a d n + d := by
  simp [tick, succ_nsmul, add_assoc]

theorem tick_add_step (a d : α) (n : ℕ) : tick (a + d) d n = tick a d (n + 1) := by
  simp [tick, succ_nsmul', add_assoc]

theorem tick_tick (a d : α) (n k : ℕ) : tick (tick a d n) d k = tick a d (n + k) := by
  simp [tick, add_nsmul, add_assoc]

variable [LinearOrder α] [IsOrderedAddMonoid α]

theorem tick_strictMono (a : α) {d : α} (hd : 0 < d) : StrictMono (tick a d) := by
  apply strictMono_nat_of_lt_succ
  intro n
  rw [tick_succ]
  exact lt_add_of_pos_right _ hd

theorem le_tick (a : α) {d : α} (hd : 0 < d) (n : ℕ) : a ≤ tick a d n := by
  simpa using (tick_strictMono a hd).monotone (Nat.zero_le n)

theorem exists_gap (S : Finset α) (a : α) {d : α} (hd : 0 < d) :
    ∃ n, tick a d n ∉ S := by
  by_contra hall
  push Not at hall
  have hinfinite : (Set.range (tick a d)).Infinite :=
    Set.infinite_range_of_injective (tick_strictMono a hd).injective
  apply hinfinite
  apply S.finite_toSet.subset
  rintro _ ⟨n, rfl⟩
  exact hall n

/-- How many terms, from `a` on, the set holds without interruption. -/
def gapIndex (S : Finset α) (a : α) {d : α} (hd : 0 < d) : ℕ :=
  Nat.find (exists_gap S a hd)

def firstGap (S : Finset α) (a : α) {d : α} (hd : 0 < d) : α :=
  tick a d (gapIndex S a hd)

theorem gapIndex_eq_iff (S : Finset α) (a : α) {d : α} (hd : 0 < d) (n : ℕ) :
    gapIndex S a hd = n ↔ tick a d n ∉ S ∧ ∀ j < n, tick a d j ∈ S := by
  simp [gapIndex, Nat.find_eq_iff]

theorem firstGap_notMem (S : Finset α) (a : α) {d : α} (hd : 0 < d) :
    firstGap S a hd ∉ S :=
  ((gapIndex_eq_iff S a hd _).mp rfl).1

theorem tick_mem_of_lt_gapIndex (S : Finset α) (a : α) {d : α} (hd : 0 < d)
    {j : ℕ} (hj : j < gapIndex S a hd) : tick a d j ∈ S :=
  ((gapIndex_eq_iff S a hd _).mp rfl).2 j hj

theorem le_firstGap (S : Finset α) (a : α) {d : α} (hd : 0 < d) :
    a ≤ firstGap S a hd :=
  le_tick a hd _

theorem gapIndex_of_notMem {S : Finset α} {a d : α} (hd : 0 < d) (ha : a ∉ S) :
    gapIndex S a hd = 0 := by
  rw [gapIndex_eq_iff]
  simpa using ha

theorem gapIndex_of_mem {S : Finset α} {a d : α} (hd : 0 < d) (ha : a ∈ S) :
    gapIndex S a hd = gapIndex S (a + d) hd + 1 := by
  obtain ⟨hnot, hall⟩ := (gapIndex_eq_iff S (a + d) hd _).mp rfl
  rw [gapIndex_eq_iff]
  refine ⟨by simpa only [tick_add_step] using hnot, ?_⟩
  intro j hj
  cases j with
  | zero => simpa using ha
  | succ j =>
      rw [← tick_add_step]
      exact hall j (by omega)

/-- Only the elements from `a` on decide where the first gap is. -/
theorem gapIndex_congr {S T : Finset α} {a d : α} (hd : 0 < d)
    (hagree : ∀ t, a ≤ t → (t ∈ S ↔ t ∈ T)) :
    gapIndex S a hd = gapIndex T a hd := by
  obtain ⟨hnot, hall⟩ := (gapIndex_eq_iff T a hd _).mp rfl
  rw [gapIndex_eq_iff]
  refine ⟨fun h => hnot ((hagree _ (le_tick a hd _)).mp h), ?_⟩
  intro j hj
  exact (hagree _ (le_tick a hd j)).mpr (hall j hj)

end OLog.Lib
