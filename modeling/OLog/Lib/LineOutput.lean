import Mathlib.Data.List.Nodup
import Mathlib.Data.List.Perm.Subperm
import Mathlib.Tactic.Linarith
import OLog.Lib.DelayLine

/-!
What a delay line puts out, in order, over the points of a grid: at each point
its item, unless that is held, and then the item that is released there. Two
questions are asked about every beginning of the output, for a receiver that
wants the items in the order of the points: how many items can have overtaken
one that is still missing, and where an item comes that was overtaken.
-/

namespace OLog.Lib

/-- Where a beginning of a concatenation ends. -/
theorem prefix_flatMap {α β : Type} {f : α → List β} {l : List α} {front : List β} {x : β}
    (h : front ++ [x] <+: l.flatMap f) :
    ∃ before a after head tail, l = before ++ a :: after ∧ f a = head ++ x :: tail ∧
      front = before.flatMap f ++ head := by
  induction l generalizing front with
  | nil => exact absurd (List.prefix_nil.mp h) (by simp)
  | cons a l ih =>
      rw [List.flatMap_cons] at h
      rcases lt_or_ge front.length (f a).length with hshort | hlong
      · obtain ⟨tail, htail⟩ := List.prefix_of_prefix_length_le h (List.prefix_append (f a) _)
          (by simp; omega)
        exact ⟨[], a, l, front, tail, rfl, by rw [← htail]; simp, rfl⟩
      · obtain ⟨rest, rfl⟩ := List.prefix_of_prefix_length_le (List.prefix_append (f a) _)
          ((List.prefix_append front [x]).trans h) hlong
        rw [List.append_assoc, List.prefix_append_right_inj] at h
        obtain ⟨before, b, after, head, tail, rfl, hhead, rfl⟩ := ih h
        exact ⟨a :: before, b, after, head, tail, rfl, hhead, by simp⟩

theorem pointsFrom_split {step t u : Int} {n : Nat} {before after : List Int}
    (h : pointsFrom step t n = before ++ u :: after) :
    before = pointsFrom step t before.length ∧ u = t + (before.length + 1) * step := by
  induction before generalizing t n with
  | nil =>
      cases n with
      | zero => cases h
      | succ n =>
          obtain ⟨rfl, _⟩ := List.cons.inj h
          exact ⟨rfl, by simp⟩
  | cons v before ih =>
      cases n with
      | zero => cases h
      | succ n =>
          obtain ⟨rfl, hrest⟩ := List.cons.inj h
          obtain ⟨hbefore, hu⟩ := ih hrest
          refine ⟨congrArg (_ :: ·) hbefore, ?_⟩
          rw [hu, List.length_cons]
          push_cast
          ring

theorem length_pointsFrom (step t : Int) (n : Nat) : (pointsFrom step t n).length = n := by
  induction n generalizing t with
  | zero => rfl
  | succ n ih => rw [pointsFrom, List.length_cons, ih]

theorem pointsFrom_concat (step t : Int) (n : Nat) :
    pointsFrom step t (n + 1) = pointsFrom step t n ++ [t + (n + 1) * step] := by
  induction n generalizing t with
  | zero => simp [pointsFrom]
  | succ n ih =>
      have hlast : t + step + (n + 1) * step = t + ((n + 1 : Nat) + 1) * step := by
        push_cast
        ring
      rw [pointsFrom, ih, hlast]
      rfl

namespace DelayLine

/-- The line runs over the points behind `t`, before it goes off for the first
time, and it never goes off at two points in a row. -/
structure Regular (line : DelayLine) (step t : Int) : Prop where
  step_pos : 0 < step
  grid : line.trigger.OnGrid step t
  lag : step ∣ line.lag
  ahead : t < line.trigger.first
  spaced : step < line.trigger.period

noncomputable def output (line : DelayLine) (points : List Int) : List Int :=
  points.flatMap (fun t => (line.entryAt t).sent)

variable {line : DelayLine} {step t : Int}

section Points

variable (h : line.Regular step t)

include h

theorem Regular.of_fires {u : Int} (hfires : line.trigger.Fires u) : t < u ∧ step ∣ u - t := by
  obtain ⟨k, hk, _, rfl⟩ := hfires
  have hmono : line.trigger.time 0 ≤ line.trigger.time k := Periodic.time_le_iff.mpr hk
  have hahead := h.ahead
  rw [Periodic.time_zero] at hmono
  exact ⟨by omega, h.grid.dvd k⟩

theorem Regular.not_fires_twice {u v : Int} (hu : line.trigger.Fires u)
    (hv : line.trigger.Fires v) : v ≠ u + step := by
  obtain ⟨k, _, _, rfl⟩ := hu
  obtain ⟨j, _, _, rfl⟩ := hv
  intro heq
  have hpos := h.step_pos
  have hspaced := h.spaced
  have hlt : k < j := by
    apply (Periodic.time_lt_iff (p := line.trigger)).mp
    omega
  have hnext := line.trigger.time_succ k
  have hmono : line.trigger.time (k + 1) ≤ line.trigger.time j :=
    Periodic.time_le_iff.mpr (by omega)
  omega

/-- At the point before an item is held and another one is released, neither
happens. -/
theorem Regular.quiet_before {u : Int} (hfires : line.trigger.Fires u)
    (hreleased : line.released.Fires (u - line.lag)) :
    (line.entryAt (u - step)).sent = [u - step] := by
  classical
  have hfree : ¬ line.trigger.Fires (u - step) :=
    fun hbefore => h.not_fires_twice hbefore hfires (by ring)
  have htimer : ¬ line.timers.Fires (u - step) := by
    intro htimer
    rw [timers_fires_iff] at htimer
    exact h.not_fires_twice (fires_of_released htimer) (fires_of_released hreleased) (by ring)
  simp [entryAt, hfree, htimer]

theorem Regular.mem_output {n : Nat} {u : Int} :
    u ∈ line.output (pointsFrom step t n) ↔ u ∈ pointsFrom step t n ∧
      (¬ line.trigger.Fires u ∨
        line.released.Fires u ∧ u + line.lag ∈ pointsFrom step t n) := by
  have hlag := line.lag_pos
  unfold output
  rw [List.mem_flatMap]
  constructor
  · rintro ⟨v, hv, hmem⟩
    rcases mem_entryAt.mp hmem with ⟨hfree, rfl⟩ | ⟨hreleased, rfl⟩
    · exact ⟨hv, Or.inl hfree⟩
    · obtain ⟨hlt, hdvd⟩ := h.of_fires (fires_of_released hreleased)
      exact ⟨mem_pointsFrom_of_le h.step_pos hv hlt (by omega) hdvd, Or.inr ⟨hreleased, hv⟩⟩
  · rintro ⟨hu, hfree | ⟨hreleased, hv⟩⟩
    · exact ⟨u, hu, mem_entryAt.mpr (Or.inl ⟨hfree, rfl⟩)⟩
    · exact ⟨u + line.lag, hv, mem_entryAt.mpr (Or.inr ⟨hreleased, rfl⟩)⟩

theorem Regular.output_nodup (n : Nat) : (line.output (pointsFrom step t n)).Nodup := by
  classical
  have hlag := line.lag_pos
  apply List.nodup_flatMap.mpr
  constructor
  · intro u _
    have hne : u ≠ u - line.lag := by omega
    unfold entryAt
    split_ifs <;> simp [hne]
  · refine (pointsFrom_pairwise h.step_pos t n).imp ?_
    intro u v huv x hx hx'
    rcases mem_entryAt.mp hx with ⟨hfree, rfl⟩ | ⟨hreleased, rfl⟩
    · rcases mem_entryAt.mp hx' with ⟨_, rfl⟩ | ⟨hreleased, _⟩
      · omega
      · exact hfree (fires_of_released hreleased)
    · rcases mem_entryAt.mp hx' with ⟨hfree, rfl⟩ | ⟨_, rfl⟩
      · exact hfree (fires_of_released hreleased)
      · omega

end Points

open Classical in
/-- Every place in the output is that of a point's own item or that of an item
which is released there. -/
theorem output_prefix {n : Nat} {front : List Int} {x : Int}
    (h : front ++ [x] <+: line.output (pointsFrom step t n)) :
    ∃ m : Nat, m < n ∧
      ((x = t + (m + 1) * step ∧ ¬ line.trigger.Fires x ∧
          front = line.output (pointsFrom step t m)) ∨
        (x + line.lag = t + (m + 1) * step ∧ line.released.Fires x ∧
          front = line.output (pointsFrom step t m) ++
            if line.trigger.Fires (x + line.lag) then [] else [x + line.lag])) := by
  obtain ⟨before, u, after, head, tail, hpoints, hsent, hfront⟩ := prefix_flatMap h
  obtain ⟨hbefore, hu⟩ := pointsFrom_split hpoints
  have hlength := congrArg List.length hpoints
  rw [length_pointsFrom, List.length_append, List.length_cons] at hlength
  refine ⟨before.length, by omega, ?_⟩
  rw [← hu, ← hbefore, hfront]
  have hmember : x ∈ (line.entryAt u).sent := by
    rw [hsent]
    exact List.mem_append_right _ List.mem_cons_self
  -- at most one item is released at a point
  have hsingle : ∀ {head tail : List Int},
      (if line.timers.Fires u then [u - line.lag] else []) = head ++ x :: tail →
        head = [] ∧ x = u - line.lag := by
    intro head tail heq
    split_ifs at heq
    · cases head with
      | nil => exact ⟨rfl, (List.cons.inj heq).1.symm⟩
      | cons y head => simp at heq
    · simp at heq
  have hlag := line.lag_pos
  unfold entryAt at hsent
  rcases mem_entryAt.mp hmember with ⟨hfree, rfl⟩ | ⟨hreleased, hlate⟩
  · refine Or.inl ⟨rfl, hfree, ?_⟩
    rw [if_neg hfree] at hsent
    cases head with
    | nil => exact List.append_nil _
    | cons y head =>
        have := (hsingle (List.cons.inj hsent).2).2
        omega
  · refine Or.inr ⟨hlate, hreleased, ?_⟩
    rw [hlate]
    congr 1
    by_cases hfires : line.trigger.Fires u
    · rw [if_pos hfires] at hsent ⊢
      exact (hsingle hsent).1
    · rw [if_neg hfires] at hsent ⊢
      cases head with
      | nil =>
          have := (List.cons.inj hsent).1
          omega
      | cons y head =>
          obtain ⟨rfl, hrest⟩ := List.cons.inj hsent
          rw [(hsingle hrest).1]

/-- The first point's own item comes first, if it is not held. -/
theorem output_head {n : Nat} {x : Int} {rest : List Int} (hfree : ¬ line.trigger.Fires (t + step))
    (h : line.output (pointsFrom step t n) = x :: rest) : x = t + step := by
  cases n with
  | zero => cases h
  | succ n =>
      unfold output pointsFrom entryAt at h
      rw [List.flatMap_cons, if_neg hfree] at h
      exact (List.cons.inj h).1.symm

section Complete

variable (h : line.Regular step t)
  (hall : ∀ u, line.trigger.Fires u → line.released.Fires u)

include h

/-- What lies between two points of the grid. -/
theorem Regular.count_le {n : Nat} {front : List Int}
    (hfront : front.Sublist (line.output (pointsFrom step t n))) {u v : Int} (hgrid : step ∣ u - t)
    (hlast : ∀ x ∈ front, x ≤ v) {k : Nat} (hk : v ≤ u + k * step) :
    front.countP (fun x => u < x) ≤ k := by
  have hnodup : (front.filter (fun x => u < x)).Nodup :=
    ((h.output_nodup n).sublist hfront).filter _
  have hsub : front.filter (fun x => u < x) ⊆ pointsFrom step u k := by
    intro x hx
    obtain ⟨hmem, hlt⟩ := List.mem_filter.mp hx
    have hpoint := ((h.mem_output).mp (hfront.subset hmem)).1
    obtain ⟨_, _, hdvd⟩ := (mem_pointsFrom h.step_pos).mp hpoint
    have hdiff : x - u = (x - t) - (u - t) := by ring
    refine (mem_pointsFrom h.step_pos).mpr ⟨by simpa using hlt, (hlast x hmem).trans hk, ?_⟩
    rw [hdiff]
    exact hdvd.sub hgrid
  have hle := (hnodup.subperm hsub).length_le
  rwa [length_pointsFrom, ← List.countP_eq_length_filter] at hle

theorem Regular.le_of_mem_output {m : Nat} {x : Int}
    (hx : x ∈ line.output (pointsFrom step t m)) : x ≤ t + m * step :=
  ((mem_pointsFrom h.step_pos).mp (h.mem_output.mp hx).1).2.1

/-- Up to the point that it has come to, a beginning of the output has what was
put out at the points before. -/
theorem Regular.beginning {n : Nat} {front : List Int} {x : Int}
    (hfront : front ++ [x] <+: line.output (pointsFrom step t n)) :
    ∃ m : Nat, (∀ y ∈ front ++ [x], y ≤ t + (m + 1) * step) ∧
      line.output (pointsFrom step t m) ⊆ front := by
  classical
  have hpos := h.step_pos
  have hlag := line.lag_pos
  obtain ⟨m, _, ⟨hx, _, rfl⟩ | ⟨hx, _, rfl⟩⟩ := output_prefix hfront
  · refine ⟨m, ?_, List.Subset.refl _⟩
    intro y hy
    rcases List.mem_append.mp hy with hy | hy
    · have := h.le_of_mem_output hy
      linarith
    · rw [List.mem_singleton.mp hy, hx]
  · refine ⟨m, ?_, List.subset_append_left _ _⟩
    intro y hy
    rcases List.mem_append.mp hy with hy | hy
    · rcases List.mem_append.mp hy with hy | hy
      · have := h.le_of_mem_output hy
        linarith
      · split_ifs at hy
        · cases hy
        · rw [List.mem_singleton.mp hy, hx]
    · rw [List.mem_singleton.mp hy]
      linarith

include hall

/-- An item that is not yet there once a point is reached lies behind that point,
or not further before it than the lag. -/
theorem Regular.missing {m : Nat} {u : Int} (hu : t < u) (hgrid : step ∣ u - t)
    (hmissing : u ∉ line.output (pointsFrom step t m)) : t + (m + 1) * step ≤ u + line.lag := by
  have hlag := line.lag_pos
  have hround : ∀ v, step ∣ v - t → t + m * step < v → t + (m + 1) * step ≤ v := by
    intro v hdvd hlt
    have hsplit : v - (t + m * step) = (v - t) - m * step := by ring
    have hle := Int.le_of_dvd (by linarith) (hsplit ▸ hdvd.sub (dvd_mul_left step (m : Int)))
    linarith
  by_cases hpoint : u ∈ pointsFrom step t m
  · rw [h.mem_output] at hmissing
    have hfires : line.trigger.Fires u := by
      by_contra hfree
      exact hmissing ⟨hpoint, Or.inl hfree⟩
    have hsum : u + line.lag - t = (u - t) + line.lag := by ring
    have hdvd : step ∣ u + line.lag - t := hsum ▸ hgrid.add h.lag
    apply hround _ hdvd
    by_contra hle
    refine hmissing ⟨hpoint, Or.inr ⟨hall u hfires, ?_⟩⟩
    exact (mem_pointsFrom h.step_pos).mpr ⟨by linarith, by linarith, hdvd⟩
  · have hlt : t + m * step < u := by
      by_contra hle
      exact hpoint ((mem_pointsFrom h.step_pos).mpr ⟨hu, by linarith, hgrid⟩)
    have := hround u hgrid hlt
    linarith

/-- An item that is still missing has been overtaken by no more items than there
are points in the lag. -/
theorem Regular.overtaken_le {k n : Nat} (hk : line.lag ≤ k * step) {front : List Int}
    (hfront : front <+: line.output (pointsFrom step t n)) {u : Int} (hu : t < u)
    (hgrid : step ∣ u - t) (hmissing : u ∉ front) : front.countP (fun x => u < x) ≤ k := by
  rcases List.eq_nil_or_concat front with rfl | ⟨before, x, hconcat⟩
  · simp
  rw [List.concat_eq_append] at hconcat
  subst hconcat
  obtain ⟨m, hlast, hsub⟩ := h.beginning hfront
  have hreached := h.missing hall hu hgrid
    (fun hmem => hmissing (List.mem_append_left _ (hsub hmem)))
  exact h.count_le hfront.sublist hgrid hlast (by linarith)

/-- Every item comes behind all others so far, or else fills the first gap, and
then the item right before it was of the first kind. -/
theorem Regular.newest_or_fills {n : Nat} {front : List Int} {x : Int}
    (hfront : front ++ [x] <+: line.output (pointsFrom step t n)) :
    (∀ y ∈ front, y < x) ∨
      (∀ u, t < u → step ∣ u - t → u < x → u ∈ front) ∧
        ∀ before last, front = before ++ [last] → ∀ y ∈ before, y < last := by
  classical
  have hpos := h.step_pos
  obtain ⟨m, _, ⟨hx, _, rfl⟩ | ⟨hx, hreleased, hfrontEq⟩⟩ := output_prefix hfront
  · left
    intro y hy
    have := h.le_of_mem_output hy
    linarith
  · right
    constructor
    · intro u hu hgrid hlt
      by_contra hmissing
      have hreached := h.missing hall hu hgrid
        (fun hmem => hmissing (hfrontEq ▸ List.mem_append_left _ hmem))
      linarith
    · intro before last hlast y hy
      by_cases hfires : line.trigger.Fires (x + line.lag)
      · -- nothing is held or released at the point before
        rw [if_pos hfires, List.append_nil] at hfrontEq
        cases m with
        | zero =>
            rw [hfrontEq] at hlast
            exact absurd hlast (by simp [output, pointsFrom])
        | succ m =>
            have hshift : x = x + line.lag - line.lag := by ring
            have hquiet := h.quiet_before hfires (hshift ▸ hreleased)
            have hpoint : t + (m + 1) * step = x + line.lag - step := by
              push_cast at hx
              linarith
            rw [pointsFrom_concat, output, List.flatMap_append, List.flatMap_singleton, hpoint,
              hquiet] at hfrontEq
            obtain ⟨rfl, hend⟩ := List.append_inj' (hlast.symm.trans hfrontEq) rfl
            obtain ⟨rfl, _⟩ := List.cons.inj hend
            have := h.le_of_mem_output hy
            linarith
      · rw [if_neg hfires] at hfrontEq
        obtain ⟨rfl, hend⟩ := List.append_inj' (hlast.symm.trans hfrontEq) rfl
        obtain ⟨rfl, _⟩ := List.cons.inj hend
        have := h.le_of_mem_output hy
        linarith

end Complete

/-- What is released at the point: all that is sent but the point's own item. -/
def Entry.resent (e : Entry) : List Int := if e.held then e.sent else e.sent.tail

theorem entry_resent (line : DelayLine) (s : State) (t : Int) :
    (line.entry s t).resent = if t = s.timer then (line.waiting s t).take 1 else [] := by
  by_cases hholds : line.Holds s t <;> simp [entry, Entry.resent, hholds]

section Parts

open Classical

theorem entryAt_free (u : Int) :
    (line.entryAt u).sent.filter (fun x => ¬ line.trigger.Fires x) =
      if ¬ line.trigger.Fires u then [u] else [] := by
  have hreleased : line.timers.Fires u → line.trigger.Fires (u - line.lag) := fun htimer =>
    fires_of_released ((timers_fires_iff line u).mp htimer)
  unfold entryAt
  by_cases hfires : line.trigger.Fires u <;> by_cases htimer : line.timers.Fires u <;>
    simp [hfires, htimer, hreleased]

theorem entryAt_held (u : Int) :
    (line.entryAt u).sent.filter (fun x => line.trigger.Fires x) = (line.entryAt u).resent := by
  have hreleased : line.timers.Fires u → line.trigger.Fires (u - line.lag) := fun htimer =>
    fires_of_released ((timers_fires_iff line u).mp htimer)
  unfold entryAt Entry.resent
  by_cases hfires : line.trigger.Fires u <;> by_cases htimer : line.timers.Fires u <;>
    simp [hfires, htimer, hreleased]

/-- The items that are not held come in order. -/
theorem output_free (points : List Int) :
    (line.output points).filter (fun x => ¬ line.trigger.Fires x) =
      points.filter (fun x => ¬ line.trigger.Fires x) := by
  unfold output
  induction points with
  | nil => rfl
  | cons u points ih =>
      rw [List.flatMap_cons, List.filter_append, ih, entryAt_free]
      by_cases hfires : line.trigger.Fires u <;> simp [hfires]

theorem output_held (points : List Int) :
    (line.output points).filter (fun x => line.trigger.Fires x) =
      points.flatMap (fun u => (line.entryAt u).resent) := by
  unfold output
  induction points with
  | nil => rfl
  | cons u points ih =>
      rw [List.flatMap_cons, List.filter_append, ih, entryAt_held, List.flatMap_cons]

/-- When a held item is released, the own items of all points up to then have
been sent. -/
theorem released_front {n : Nat} {front : List Int} {d : Int}
    (h : front ++ [d] <+: line.output (pointsFrom step t n)) (hd : line.trigger.Fires d) :
    ∃ m : Nat, d + line.lag = t + (m + 1) * step ∧
      front.filter (fun x => ¬ line.trigger.Fires x) =
        (pointsFrom step t (m + 1)).filter (fun x => ¬ line.trigger.Fires x) := by
  obtain ⟨m, _, ⟨_, hfree, _⟩ | ⟨hlate, _, hfront⟩⟩ := output_prefix h
  · exact absurd hd hfree
  · refine ⟨m, hlate, ?_⟩
    rw [hfront, List.filter_append, output_free, pointsFrom_concat, List.filter_append, ← hlate]
    congr 1
    by_cases hfires : line.trigger.Fires (d + line.lag) <;> simp [hfires]

/-- How many items can be held between an item and its release. -/
theorem held_le {c : Nat} (hc : ∀ j k : Int, 0 ≤ k → k < j → j < line.trigger.budget →
    (j - k) * line.trigger.period ≤ line.lag → j - k ≤ c) (hstep : 0 < step) {d : Int}
    (hd : line.trigger.Fires d) {K : Nat} (hK : line.lag = K * step) :
    (pointsFrom step d K).countP (fun x => line.trigger.Fires x) ≤ c := by
  obtain ⟨k, hk, _, rfl⟩ := hd
  have hnodup : ((pointsFrom step (line.trigger.time k) K).filter
      (fun x => line.trigger.Fires x)).Nodup :=
    ((pointsFrom_pairwise hstep _ K).imp ne_of_lt).filter _
  have hsub : (pointsFrom step (line.trigger.time k) K).filter (fun x => line.trigger.Fires x) ⊆
      (List.range c).map (fun i : Nat => line.trigger.time (k + 1 + i)) := by
    intro x hx
    obtain ⟨hpoint, hfires⟩ := List.mem_filter.mp hx
    obtain ⟨hlt, hle, _⟩ := (mem_pointsFrom hstep).mp hpoint
    obtain ⟨j, _, hj, rfl⟩ := of_decide_eq_true hfires
    have hkj : k < j := Periodic.time_lt_iff.mp hlt
    have hwithin : (j - k) * line.trigger.period ≤ line.lag := by
      unfold Periodic.time at hle
      rw [hK]
      linarith
    have := hc j k hk hkj hj hwithin
    refine List.mem_map.mpr ⟨(j - k - 1).toNat, List.mem_range.mpr (by omega), ?_⟩
    congr 1
    omega
  have hlength := (hnodup.subperm hsub).length_le
  rwa [List.length_map, List.length_range, ← List.countP_eq_length_filter] at hlength

/-- So many own items at least have overtaken an item when it is released. -/
theorem overtaken_ge {c : Nat} (hc : ∀ j k : Int, 0 ≤ k → k < j → j < line.trigger.budget →
    (j - k) * line.trigger.period ≤ line.lag → j - k ≤ c) (h : line.Regular step t) {d : Int}
    (hd : line.trigger.Fires d) {K m : Nat} (hK : line.lag = K * step)
    (hm : d + line.lag = t + (m + 1) * step) :
    K ≤ ((pointsFrom step t (m + 1)).filter (fun x => ¬ line.trigger.Fires x)).countP
      (fun x => d < x) + c := by
  have hheld := held_le hc h.step_pos hd hK
  have hsplit := List.length_eq_countP_add_countP (fun x => decide (line.trigger.Fires x))
    (l := pointsFrom step d K)
  obtain ⟨hafter, hdvd⟩ := h.of_fires hd
  have hsub : (pointsFrom step d K).filter (fun x => ¬ line.trigger.Fires x) ⊆
      ((pointsFrom step t (m + 1)).filter (fun x => ¬ line.trigger.Fires x)).filter
        (fun x => d < x) := by
    intro x hx
    obtain ⟨hpoint, hfree⟩ := List.mem_filter.mp hx
    obtain ⟨hlt, hle, hstep⟩ := (mem_pointsFrom h.step_pos).mp hpoint
    refine List.mem_filter.mpr ⟨List.mem_filter.mpr ⟨?_, hfree⟩, decide_eq_true hlt⟩
    refine (mem_pointsFrom h.step_pos).mpr ⟨by omega, ?_, ?_⟩
    · push_cast
      omega
    · have := dvd_add hstep hdvd
      rwa [sub_add_sub_cancel] at this
  have hnodup : ((pointsFrom step d K).filter (fun x => ¬ line.trigger.Fires x)).Nodup :=
    ((pointsFrom_pairwise h.step_pos _ K).imp ne_of_lt).filter _
  have hlength := (hnodup.subperm hsub).length_le
  rw [← List.countP_eq_length_filter, ← List.countP_eq_length_filter] at hlength
  rw [length_pointsFrom] at hsplit
  simp only [decide_not, Bool.not_eq_true, decide_eq_false_iff_not] at hlength hsplit ⊢
  omega

end Parts

end DelayLine

end OLog.Lib
