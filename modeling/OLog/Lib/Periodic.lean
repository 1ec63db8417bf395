import Mathlib.Algebra.Order.Ring.Int
import Mathlib.Data.List.Basic
import Mathlib.Tactic.Common
import Mathlib.Tactic.Positivity
import Mathlib.Tactic.Ring

/-!
Triggers that go off periodically, a limited number of times, observed at the
points of a grid that their times belong to.
-/

namespace OLog.Lib

/-- A trigger goes off at `first` and then every `period`, `budget` times. -/
structure Periodic where
  first : Int
  period : Int
  budget : Int
  period_pos : 0 < period

namespace Periodic

variable (p : Periodic)

def time (k : Int) : Int := p.first + k * p.period

def Fires (t : Int) : Prop := ∃ k, 0 ≤ k ∧ k < p.budget ∧ t = p.time k

/-- Of the times of the trigger, `c` have come at `t`. -/
structure Passed (t c : Int) : Prop where
  nonneg : 0 ≤ c
  le : c ≤ p.budget
  last : 0 < c → p.time (c - 1) ≤ t
  next : c < p.budget → t < p.time c

/-- The times of the trigger are among those of a grid through `t`. -/
structure OnGrid (step t : Int) : Prop where
  period : step ∣ p.period
  first : step ∣ p.first - t

variable {p}

@[simp] theorem time_zero : p.time 0 = p.first := by
  simp [time]

theorem time_succ (k : Int) : p.time (k + 1) = p.time k + p.period := by
  unfold time
  ring

theorem time_lt_iff {k l : Int} : p.time k < p.time l ↔ k < l := by
  unfold time
  rw [Int.add_lt_add_iff_left]
  exact Int.mul_lt_mul_right p.period_pos

theorem time_le_iff {k l : Int} : p.time k ≤ p.time l ↔ k ≤ l := by
  rw [← not_lt, time_lt_iff, not_lt]

theorem fires_time_iff {k : Int} : p.Fires (p.time k) ↔ 0 ≤ k ∧ k < p.budget := by
  constructor
  · rintro ⟨l, hl, hbudget, heq⟩
    obtain rfl : k = l := le_antisymm (time_le_iff.mp heq.le) (time_le_iff.mp heq.ge)
    exact ⟨hl, hbudget⟩
  · rintro ⟨hk, hbudget⟩
    exact ⟨k, hk, hbudget, rfl⟩

theorem OnGrid.dvd {step t : Int} (h : p.OnGrid step t) (k : Int) : step ∣ p.time k - t := by
  have hmul : step ∣ k * p.period := h.period.mul_left k
  have hsplit : p.time k - t = (p.first - t) + k * p.period := by
    unfold time
    ring
  rw [hsplit]
  exact h.first.add hmul

theorem OnGrid.next {step t : Int} (h : p.OnGrid step t) : p.OnGrid step (t + step) := by
  refine ⟨h.period, ?_⟩
  have hsplit : p.first - (t + step) = (p.first - t) - step := by ring
  rw [hsplit]
  exact h.first.sub (dvd_refl step)

/-- Nothing lies strictly between two points of the grid. -/
theorem OnGrid.step_le {step t : Int} (h : p.OnGrid step t) {k : Int} (hk : t < p.time k) :
    t + step ≤ p.time k := by
  have hle := Int.le_of_dvd (by omega) (h.dvd k)
  omega

theorem passed_zero {t : Int} (hbudget : 0 ≤ p.budget) (h : t < p.first) : p.Passed t 0 := by
  refine ⟨le_rfl, hbudget, ?_, ?_⟩
  · intro hpos
    omega
  · intro _
    simpa [time] using h

section Step

variable {step t c : Int} (hgrid : p.OnGrid step t) (hstep : 0 < step) (h : p.Passed t c)

include hgrid hstep h

/-- The trigger goes off at the next point exactly if its next time is there. -/
theorem Passed.fires_iff : p.Fires (t + step) ↔ c < p.budget ∧ t + step = p.time c := by
  constructor
  · rintro ⟨k, hk, hbudget, ht⟩
    have hck : c ≤ k := by
      by_contra hlt
      have hlast := h.last (by omega)
      have hmono : p.time k ≤ p.time (c - 1) := time_le_iff.mpr (by omega)
      omega
    have hc : c < p.budget := by omega
    have hmono : p.time c ≤ p.time k := time_le_iff.mpr hck
    have hle := hgrid.step_le (h.next hc)
    exact ⟨hc, by omega⟩
  · rintro ⟨hc, ht⟩
    exact ⟨c, h.nonneg, hc, ht⟩

theorem Passed.fired (hfires : p.Fires (t + step)) : p.Passed (t + step) (c + 1) := by
  obtain ⟨hc, ht⟩ := (h.fires_iff hgrid hstep).mp hfires
  have hnonneg := h.nonneg
  refine ⟨by omega, by omega, ?_, ?_⟩
  · intro _
    rw [add_sub_cancel_right, ht]
  · intro _
    rw [ht]
    exact time_lt_iff.mpr (by omega)

theorem Passed.idle (hfires : ¬ p.Fires (t + step)) : p.Passed (t + step) c := by
  refine ⟨h.nonneg, h.le, ?_, ?_⟩
  · intro hpos
    have hlast := h.last hpos
    omega
  · intro hc
    have hle := hgrid.step_le (h.next hc)
    have hne : t + step ≠ p.time c := fun ht => hfires ((h.fires_iff hgrid hstep).mpr ⟨hc, ht⟩)
    omega

end Step

/-- A time that has come is counted. -/
theorem Passed.lt_of_le {t c k : Int} (h : p.Passed t c) (hk : k < p.budget)
    (ht : p.time k ≤ t) : k < c := by
  by_contra hck
  have hnext := h.next (by omega)
  have hmono : p.time c ≤ p.time k := time_le_iff.mpr (by omega)
  omega

/-- A time that is still to come is not. -/
theorem Passed.le_of_lt {t c k : Int} (h : p.Passed t c) (hk : 0 ≤ k) (ht : t < p.time k) :
    c ≤ k := by
  by_contra hkc
  have hlast := h.last (by omega)
  have hmono : p.time k ≤ p.time (c - 1) := time_le_iff.mpr (by omega)
  omega

end Periodic

/-- The `n` points after `t`. -/
def pointsFrom (step : Int) : Int → Nat → List Int
  | _, 0 => []
  | t, n + 1 => (t + step) :: pointsFrom step (t + step) n

theorem mem_pointsFrom {step : Int} (hstep : 0 < step) {t u : Int} {n : Nat} :
    u ∈ pointsFrom step t n ↔ t < u ∧ u ≤ t + n * step ∧ step ∣ u - t := by
  induction n generalizing t with
  | zero =>
      simp only [pointsFrom, List.not_mem_nil, Nat.cast_zero, zero_mul, add_zero, false_iff]
      rintro ⟨hlt, hle, _⟩
      omega
  | succ n ih =>
      have hsplit : u - t = (u - (t + step)) + step := by ring
      have hdvd : step ∣ u - t ↔ step ∣ u - (t + step) := by
        rw [hsplit]
        exact Int.dvd_add_left (dvd_refl step)
      have hend : t + ((n + 1 : Nat) : Int) * step = t + step + n * step := by
        push_cast
        ring
      have hnonneg : 0 ≤ (n : Int) * step := by positivity
      rw [pointsFrom, List.mem_cons, ih, hdvd, hend]
      constructor
      · rintro (rfl | ⟨hlt, hle, hd⟩)
        · exact ⟨by omega, by omega, by simp⟩
        · exact ⟨by omega, hle, hd⟩
      · rintro ⟨hlt, hle, hd⟩
        rcases lt_trichotomy u (t + step) with hless | heq | hmore
        · have hle' := Int.le_of_dvd (by omega) (hdvd.mpr hd)
          omega
        · exact Or.inl heq
        · exact Or.inr ⟨hmore, hle, hd⟩

/-- With a point, all earlier places of the grid are among the points. -/
theorem mem_pointsFrom_of_le {step : Int} (hstep : 0 < step) {t u v : Int} {n : Nat}
    (hu : u ∈ pointsFrom step t n) (hlt : t < v) (hle : v ≤ u) (hdvd : step ∣ v - t) :
    v ∈ pointsFrom step t n := by
  obtain ⟨_, hend, _⟩ := (mem_pointsFrom hstep).mp hu
  exact (mem_pointsFrom hstep).mpr ⟨hlt, hle.trans hend, hdvd⟩

theorem pointsFrom_pairwise {step : Int} (hstep : 0 < step) (t : Int) (n : Nat) :
    (pointsFrom step t n).Pairwise (· < ·) := by
  induction n generalizing t with
  | zero => exact List.Pairwise.nil
  | succ n ih =>
      refine List.pairwise_cons.mpr ⟨?_, ih _⟩
      intro u hu
      exact ((mem_pointsFrom hstep).mp hu).1

end OLog.Lib
