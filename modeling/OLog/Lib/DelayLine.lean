import OLog.Lib.Periodic

/-!
A delay line driven by a periodic trigger. It withholds the items at which the
trigger goes off and releases them in order, one whenever its timer runs out.
The timer is set again only if something is waiting at that moment, so a line
that is emptied before the next item is withheld stops for good.
-/

namespace OLog.Lib

namespace Periodic

variable (p : Periodic)

/-- The times from number `j` up to number `c`. -/
def times (j c : Int) : List Int := (List.range (c - j).toNat).map (fun i : Nat => p.time (j + i))

variable {p}

theorem times_eq_nil_iff {j c : Int} : p.times j c = [] ↔ c ≤ j := by
  simp only [times, List.map_eq_nil_iff, List.range_eq_nil]
  omega

theorem times_concat {j c : Int} (h : j ≤ c) : p.times j (c + 1) = p.times j c ++ [p.time c] := by
  obtain ⟨n, hn⟩ : ∃ n : Nat, c = j + n := ⟨(c - j).toNat, by omega⟩
  have hlong : (c + 1 - j).toNat = n + 1 := by omega
  have hshort : (c - j).toNat = n := by omega
  rw [times, times, hlong, hshort, List.range_succ, List.map_append, hn]
  rfl

theorem times_cons {j c : Int} (h : j < c) : p.times j c = p.time j :: p.times (j + 1) c := by
  obtain ⟨n, hn⟩ : ∃ n : Nat, c - j = n + 1 := ⟨(c - j - 1).toNat, by omega⟩
  have hlong : (c - j).toNat = n + 1 := by omega
  have hshort : (c - (j + 1)).toNat = n := by omega
  rw [times, times, hlong, hshort, List.range_succ_eq_map, List.map_cons, List.map_map]
  congr 1
  · simp
  · apply List.map_congr_left
    intro i _
    simp only [Function.comp_apply, Nat.succ_eq_add_one]
    push_cast
    ring_nf

end Periodic

/-- A trigger, and how long what it withholds is to be kept. -/
structure DelayLine where
  trigger : Periodic
  lag : Int
  budget_pos : 0 < trigger.budget
  lag_pos : 0 < lag

namespace DelayLine

structure State where
  current : Int
  timer : Int
  queue : List Int

/-- What happens at one point: whether its item is held, and what is sent. -/
structure Entry where
  time : Int
  held : Bool
  sent : List Int

variable (line : DelayLine)

def start : State := ⟨0, line.trigger.first + line.lag, []⟩

/-- The item at `t` is to be held. -/
def Holds (s : State) (t : Int) : Prop :=
  s.current < line.trigger.budget ∧ t = line.trigger.time s.current

instance (s : State) (t : Int) : Decidable (line.Holds s t) := by
  unfold Holds
  infer_instance

/-- What waits at `t` when the timer is looked at. -/
def waiting (s : State) (t : Int) : List Int :=
  if line.Holds s t then s.queue ++ [t] else s.queue

def entry (s : State) (t : Int) : Entry :=
  ⟨t, line.Holds s t,
    (if line.Holds s t then [] else [t]) ++
      if t = s.timer then (line.waiting s t).take 1 else []⟩

def next (s : State) (t : Int) : State :=
  ⟨if line.Holds s t then s.current + 1 else s.current,
    if t = s.timer ∧ 1 < (line.waiting s t).length then s.timer + line.trigger.period
    else s.timer,
    if t = s.timer then (line.waiting s t).tail else line.waiting s t⟩

def run : List Int → State → List Entry
  | [], _ => []
  | t :: ts, s => line.entry s t :: run ts (line.next s t)

/-- The held items that are ever released: all of them if the next one is held
before the timer runs out, and otherwise the first only. -/
def released : Periodic :=
  {line.trigger with
    budget :=
      if line.trigger.budget ≤ 1 ∨ line.trigger.period ≤ line.lag then line.trigger.budget else 1}

/-- The times at which the timer runs out. -/
def timers : Periodic := {line.released with first := line.trigger.first + line.lag}

theorem timers_time (k : Int) : line.timers.time k = line.trigger.time k + line.lag := by
  simp only [Periodic.time, timers, released]
  ring

theorem timers_fires_iff (t : Int) : line.timers.Fires t ↔ line.released.Fires (t - line.lag) := by
  have htime : ∀ k, t = line.timers.time k ↔ t - line.lag = line.released.time k := by
    intro k
    rw [timers_time]
    change _ ↔ t - line.lag = line.trigger.time k
    omega
  simp only [Periodic.Fires, htime]
  rfl

theorem released_budget :
    0 < line.released.budget ∧ line.released.budget ≤ line.trigger.budget ∧
      (line.released.budget = line.trigger.budget ∨
        line.released.budget = 1 ∧ line.lag < line.trigger.period) ∧
      (1 < line.released.budget → line.trigger.period ≤ line.lag) := by
  have hpos := line.budget_pos
  simp only [released]
  split_ifs with hkept
  · refine ⟨hpos, le_rfl, Or.inl rfl, ?_⟩
    intro hmany
    exact hkept.resolve_left (by omega)
  · push Not at hkept
    exact ⟨by omega, by omega, Or.inr ⟨rfl, hkept.2⟩, by omega⟩

/-- The state at `t`, where `j` items have been released. -/
structure Inv (t : Int) (s : State) (j : Int) : Prop where
  held : line.trigger.Passed t s.current
  sent : line.timers.Passed t j
  queue : s.queue = line.trigger.times j s.current
  timer : s.timer =
    if j < line.released.budget then line.timers.time j else line.timers.time (j - 1)

open Classical in
/-- What happens at `t`, told without the state. -/
noncomputable def entryAt (t : Int) : Entry :=
  ⟨t, decide (line.trigger.Fires t),
    (if line.trigger.Fires t then [] else [t]) ++
      (if line.timers.Fires t then [t - line.lag] else [])⟩

variable {line}

theorem start_inv {t : Int} (h : t < line.trigger.first) : line.Inv t line.start 0 := by
  have hbudget := line.released_budget.1
  have hlag := line.lag_pos
  refine ⟨Periodic.passed_zero line.budget_pos.le h,
    Periodic.passed_zero hbudget.le (show t < line.trigger.first + line.lag by omega), rfl, ?_⟩
  rw [if_pos hbudget, timers_time]
  simp [start, Periodic.time]

namespace Inv

variable {t j : Int} {s : State}

theorem le_current (h : line.Inv t s j) : j ≤ s.current := by
  rcases lt_or_ge 0 j with hpos | hzero
  · have hlast := h.sent.last hpos
    have hlag := line.lag_pos
    have hbudget := h.sent.le.trans line.released_budget.2.1
    rw [timers_time] at hlast
    have hlt := h.held.lt_of_le (k := j - 1) (by omega) (by omega)
    omega
  · exact hzero.trans h.held.nonneg

variable {step : Int} (hstep : 0 < step) (hgrid : line.trigger.OnGrid step t)
  (htimers : line.timers.OnGrid step t) (h : line.Inv t s j)

include hstep htimers h

theorem timer_iff : t + step = s.timer ↔ line.timers.Fires (t + step) := by
  have hfires : _ ↔ j < line.released.budget ∧ _ :=
    Periodic.Passed.fires_iff (p := line.timers) htimers hstep h.sent
  rw [hfires, h.timer]
  split_ifs with hmore
  · simp [hmore]
  · -- the last timer ran out before
    have hpos := line.released_budget.1
    have hlast := h.sent.last (by omega)
    constructor
    · intro ht
      omega
    · rintro ⟨hj, _⟩
      exact absurd hj hmore

/-- The second half, if the timer runs out: the longest held item is released,
and another one is waiting exactly if there is another one to be released. -/
theorem release {c : Int} (hc : line.trigger.Passed (t + step) c)
    (htimer : line.timers.Fires (t + step)) :
    j < line.released.budget ∧ s.timer = line.timers.time j ∧
      line.trigger.times j c = (t + step - line.lag) :: line.trigger.times (j + 1) c ∧
      (line.trigger.times (j + 1) c = [] ↔ ¬ j + 1 < line.released.budget) := by
  obtain ⟨hj, ht⟩ := (Periodic.Passed.fires_iff (p := line.timers) htimers hstep h.sent).mp htimer
  change j < line.released.budget at hj
  obtain ⟨_, hle, hkept, hmany⟩ := line.released_budget
  have hlag := line.lag_pos
  have hnonneg := h.sent.nonneg
  rw [timers_time] at ht
  have hjc : j < c := hc.lt_of_le (by omega) (by omega)
  have hhead : line.trigger.time j = t + step - line.lag := by omega
  refine ⟨hj, by rw [h.timer, if_pos hj], ?_, ?_⟩
  · rw [Periodic.times_cons hjc, hhead]
  · rw [Periodic.times_eq_nil_iff]
    have hnext := line.trigger.time_succ j
    constructor
    · intro hcj hmore
      have hperiod := hmany (by omega)
      have hwaits := hc.lt_of_le (k := j + 1) (by omega) (by omega)
      omega
    · intro hlast
      rcases hkept with hall | ⟨hone, hshort⟩
      · have := hc.le
        omega
      · exact hc.le_of_lt (by omega) (by omega)

omit htimers
include hgrid

theorem holds_iff : line.Holds s (t + step) ↔ line.trigger.Fires (t + step) :=
  (h.held.fires_iff hgrid hstep).symm

/-- The first half of a step: the item is held or not. -/
theorem hold {c : Int} (hc : c = if line.Holds s (t + step) then s.current + 1 else s.current) :
    line.trigger.Passed (t + step) c ∧
      line.waiting s (t + step) = line.trigger.times j c := by
  have hfires := h.holds_iff hstep hgrid
  unfold waiting
  rw [hc, h.queue]
  split_ifs with hholds
  · refine ⟨h.held.fired hgrid hstep (hfires.mp hholds), ?_⟩
    rw [Periodic.times_concat h.le_current, hholds.2]
  · exact ⟨h.held.idle hgrid hstep (fun hf => hholds (hfires.mpr hf)), rfl⟩

include htimers

theorem entry_eq : line.entry s (t + step) = line.entryAt (t + step) := by
  classical
  obtain ⟨c, hc⟩ : ∃ c, c = if line.Holds s (t + step) then s.current + 1 else s.current :=
    ⟨_, rfl⟩
  obtain ⟨hpassed, hwaiting⟩ := h.hold hstep hgrid hc
  have htimer := h.timer_iff hstep htimers
  simp only [entry, entryAt, h.holds_iff hstep hgrid, htimer]
  congr 2
  split_ifs with hnow
  · obtain ⟨_, _, hpopped, _⟩ := h.release hstep htimers hpassed hnow
    rw [hwaiting, hpopped]
    rfl
  · rfl

theorem next_inv : ∃ j', line.Inv (t + step) (line.next s (t + step)) j' := by
  obtain ⟨c, hc⟩ : ∃ c, c = if line.Holds s (t + step) then s.current + 1 else s.current :=
    ⟨_, rfl⟩
  obtain ⟨hpassed, hwaiting⟩ := h.hold hstep hgrid hc
  unfold next
  rw [← hc, hwaiting]
  by_cases hnow : line.timers.Fires (t + step)
  · have htimer := (h.timer_iff hstep htimers).mpr hnow
    obtain ⟨hj, hset, hpopped, hlast⟩ := h.release hstep htimers hpassed hnow
    refine ⟨j + 1, hpassed, ?_, ?_, ?_⟩
    · exact Periodic.Passed.fired (p := line.timers) htimers hstep h.sent hnow
    · rw [if_pos htimer, hpopped]
      rfl
    · have hmore : 1 < (line.trigger.times j c).length ↔ j + 1 < line.released.budget := by
        rw [hpopped, List.length_cons, Nat.lt_add_left_iff_pos, List.length_pos_iff, ne_eq, hlast,
          not_not]
      simp only [htimer, true_and, hmore, add_sub_cancel_right]
      split_ifs
      · rw [hset]
        exact (Periodic.time_succ (p := line.timers) j).symm
      · exact hset
  · have htimer : ¬ t + step = s.timer := fun ht => hnow ((h.timer_iff hstep htimers).mp ht)
    refine ⟨j, hpassed, ?_, if_neg htimer, ?_⟩
    · exact Periodic.Passed.idle (p := line.timers) htimers hstep h.sent hnow
    · rw [if_neg (fun ht => htimer ht.1)]
      exact h.timer

end Inv

theorem run_eq {step t j : Int} {s : State} (hstep : 0 < step)
    (hgrid : line.trigger.OnGrid step t) (htimers : line.timers.OnGrid step t)
    (h : line.Inv t s j) (n : Nat) :
    line.run (pointsFrom step t n) s = (pointsFrom step t n).map line.entryAt := by
  induction n generalizing t j s with
  | zero => rfl
  | succ n ih =>
      obtain ⟨j', hinv⟩ := h.next_inv hstep hgrid htimers
      rw [pointsFrom, run, h.entry_eq hstep hgrid htimers, List.map_cons,
        ih hgrid.next htimers.next hinv]

/-- If the trigger's first time is over, it never goes off, and every item is
sent at once. -/
theorem run_eq_of_le {step t : Int} {s : State} (hstep : 0 < step)
    (hpast : line.trigger.first ≤ t) (hcurrent : s.current = 0) (hqueue : s.queue = [])
    (n : Nat) :
    line.run (pointsFrom step t n) s = (pointsFrom step t n).map (fun u => ⟨u, false, [u]⟩) := by
  induction n generalizing t s with
  | zero => rfl
  | succ n ih =>
      obtain ⟨current, timer, queue⟩ := s
      subst hcurrent hqueue
      have hidle : ¬ line.Holds ⟨0, timer, []⟩ (t + step) := by
        rintro ⟨_, ht⟩
        simp only [Periodic.time, zero_mul, add_zero] at ht
        omega
      have hentry : line.entry ⟨0, timer, []⟩ (t + step) = ⟨t + step, false, [t + step]⟩ := by
        simp [entry, waiting, hidle]
      have hnext : line.next ⟨0, timer, []⟩ (t + step) = ⟨0, timer, []⟩ := by
        simp [next, waiting, hidle]
      rw [pointsFrom, run, hentry, hnext, List.map_cons, ih (by omega) rfl rfl]

/-- The points at which the item of `d` is sent. -/
def sentAt (log : List Entry) (d : Int) : List Int :=
  log.flatMap (fun e => (e.sent.filter (fun x => decide (x = d))).map (fun _ => e.time))

/-- Each item is sent once: where it belongs, or the lag later if it was held
and the line runs that long. -/
def Exact (lag : Int) (log : List Entry) : Prop :=
  ∀ e ∈ log, (e.held = false → sentAt log e.time = [e.time]) ∧
    (e.held = true → e.time + lag ∈ log.map Entry.time → sentAt log e.time = [e.time + lag])

section SentAt

variable {points : List Int} {entry : Int → Entry} {d : Int}

theorem sentAt_eq_nil (hsent : ∀ t ∈ points, d ∉ (entry t).sent) :
    sentAt (points.map entry) d = [] := by
  simp only [sentAt, List.flatMap_map, List.flatMap_eq_nil_iff, List.map_eq_nil_iff,
    List.filter_eq_nil_iff, decide_eq_true_eq]
  intro t ht x hx heq
  exact hsent t ht (heq ▸ hx)

theorem sentAt_eq_singleton (htime : ∀ t, (entry t).time = t) (hpoints : points.Pairwise (· < ·))
    {u : Int} (hu : u ∈ points) (honce : (entry u).sent.filter (fun x => decide (x = d)) = [d])
    (hother : ∀ t ∈ points, t ≠ u → d ∉ (entry t).sent) :
    sentAt (points.map entry) d = [u] := by
  obtain ⟨before, after, rfl⟩ := List.append_of_mem hu
  have hnodup : (before ++ u :: after).Nodup := hpoints.imp ne_of_lt
  obtain ⟨_, hcons, hdisjoint⟩ := List.nodup_append.mp hnodup
  have hbefore : sentAt (before.map entry) d = [] := by
    apply sentAt_eq_nil
    intro t ht
    exact hother t (List.mem_append_left _ ht) (hdisjoint t ht u List.mem_cons_self)
  have hafter : sentAt (after.map entry) d = [] := by
    apply sentAt_eq_nil
    intro t ht
    refine hother t (List.mem_append_right _ (List.mem_cons_of_mem _ ht)) ?_
    rintro rfl
    exact (List.nodup_cons.mp hcons).1 ht
  unfold sentAt at hbefore hafter ⊢
  rw [List.map_append, List.flatMap_append, hbefore, List.map_cons, List.flatMap_cons, hafter,
    honce, htime]
  rfl

end SentAt

section EntryAt

variable {t d : Int}

theorem mem_entryAt : d ∈ (line.entryAt t).sent ↔
    (¬ line.trigger.Fires t ∧ d = t) ∨ (line.released.Fires d ∧ d + line.lag = t) := by
  classical
  have hshift : line.timers.Fires t ∧ d = t - line.lag ↔
      line.released.Fires d ∧ d + line.lag = t := by
    rw [timers_fires_iff]
    constructor
    · rintro ⟨hfires, rfl⟩
      exact ⟨hfires, by omega⟩
    · rintro ⟨hfires, rfl⟩
      exact ⟨by simpa using hfires, by omega⟩
  rw [← hshift]
  unfold entryAt
  by_cases hheld : line.trigger.Fires t
  · by_cases htimer : line.timers.Fires t <;> simp [hheld, htimer]
  · by_cases htimer : line.timers.Fires t <;> simp [hheld, htimer]

theorem fires_of_released (h : line.released.Fires d) : line.trigger.Fires d := by
  obtain ⟨k, hk, hbudget, ht⟩ := h
  exact ⟨k, hk, hbudget.trans_le line.released_budget.2.1, ht⟩

variable {points : List Int} (hpoints : points.Pairwise (· < ·))

include hpoints

theorem sentAt_own (hd : d ∈ points) (hfires : ¬ line.trigger.Fires d) :
    sentAt (points.map line.entryAt) d = [d] := by
  classical
  have hlag := line.lag_pos
  apply sentAt_eq_singleton (fun _ => rfl) hpoints hd
  · unfold entryAt
    by_cases htimer : line.timers.Fires d
    · simp [hfires, htimer, hlag.ne']
    · simp [hfires, htimer]
  · intro t _ hne hmem
    rcases mem_entryAt.mp hmem with ⟨_, heq⟩ | ⟨hreleased, _⟩
    · exact hne heq.symm
    · exact hfires (fires_of_released hreleased)

theorem sentAt_released (hreleased : line.released.Fires d) (hd : d + line.lag ∈ points) :
    sentAt (points.map line.entryAt) d = [d + line.lag] := by
  classical
  have hlag := line.lag_pos
  have hheld := fires_of_released hreleased
  apply sentAt_eq_singleton (fun _ => rfl) hpoints hd
  · have htimer : line.timers.Fires (d + line.lag) := by
      rw [timers_fires_iff]
      simpa using hreleased
    unfold entryAt
    by_cases hown : line.trigger.Fires (d + line.lag)
    · simp [hown, htimer]
    · simp [hown, htimer, hlag.ne']
  · intro t _ hne hmem
    rcases mem_entryAt.mp hmem with ⟨hfires, rfl⟩ | ⟨_, heq⟩
    · exact hfires hheld
    · exact hne heq.symm

omit hpoints in
theorem sentAt_lost (hheld : line.trigger.Fires d) (hlost : ¬ line.released.Fires d) :
    sentAt (points.map line.entryAt) d = [] := by
  apply sentAt_eq_nil
  intro t _ hmem
  rcases mem_entryAt.mp hmem with ⟨hfires, rfl⟩ | ⟨hreleased, _⟩
  · exact hfires hheld
  · exact hlost hreleased

theorem exact_unheld (lag : Int) : Exact lag (points.map (fun u => ⟨u, false, [u]⟩)) := by
  intro e he
  obtain ⟨u, hu, rfl⟩ := List.mem_map.mp he
  refine ⟨fun _ => ?_, fun hheld => by cases hheld⟩
  apply sentAt_eq_singleton (fun _ => rfl) hpoints hu
  · simp
  · intro v _ hne hmem
    exact hne (List.mem_singleton.mp hmem).symm

/-- The line works as it should if whatever it holds, and the run lasts long
enough for, is released. -/
theorem exact_entries_iff :
    Exact line.lag (points.map line.entryAt) ↔
      ∀ u ∈ points, line.trigger.Fires u → u + line.lag ∈ points → line.released.Fires u := by
  have htimes : (points.map line.entryAt).map Entry.time = points := by
    rw [List.map_map]
    exact List.map_id _
  constructor
  · intro hexact u hu hfires hmem
    by_contra hlost
    have hsent : sentAt (points.map line.entryAt) u = [u + line.lag] :=
      (hexact _ (List.mem_map_of_mem hu)).2 (by simp [entryAt, hfires]) (by rw [htimes]; exact hmem)
    rw [sentAt_lost hfires hlost] at hsent
    cases hsent
  · intro h e he
    obtain ⟨u, hu, rfl⟩ := List.mem_map.mp he
    rw [htimes]
    refine ⟨?_, ?_⟩
    · intro hfree
      exact sentAt_own hpoints hu (by simpa [entryAt] using hfree)
    · intro hheld hmem
      have hfires : line.trigger.Fires u := by simpa [entryAt] using hheld
      exact sentAt_released hpoints (h u hu hfires hmem) hmem

end EntryAt

theorem timers_onGrid {step t : Int} (hgrid : line.trigger.OnGrid step t) (hlag : step ∣ line.lag) :
    line.timers.OnGrid step t := by
  refine ⟨hgrid.period, ?_⟩
  have hsplit : line.timers.first - t = (line.trigger.first - t) + line.lag := by
    change line.trigger.first + line.lag - t = _
    ring
  rw [hsplit]
  exact hgrid.first.add hlag

/-- A line of any length works as it should exactly if its trigger's first time
is over, or it holds one item only, or the lag is at least the period, or it is
too short for the second item to be released. -/
theorem exact_iff {step t : Int} (hstep : 0 < step) (hgrid : line.trigger.OnGrid step t)
    (hlag : step ∣ line.lag) (n : Nat) :
    Exact line.lag (line.run (pointsFrom step t n) line.start) ↔
      line.trigger.first ≤ t ∨ line.trigger.budget = 1 ∨ line.trigger.period ≤ line.lag ∨
        line.trigger.time 1 + line.lag ∉ pointsFrom step t n := by
  have hpoints := pointsFrom_pairwise hstep t n
  rcases le_or_gt line.trigger.first t with hpast | hahead
  · rw [run_eq_of_le hstep hpast rfl rfl]
    exact iff_of_true (exact_unheld hpoints _) (Or.inl hpast)
  · rw [run_eq hstep hgrid (timers_onGrid hgrid hlag) (start_inv hahead),
      exact_entries_iff hpoints]
    obtain ⟨_, _, hkept, hmany⟩ := line.released_budget
    have hbudget := line.budget_pos
    have hlagpos := line.lag_pos
    have hsecond : t < line.trigger.time 1 := by
      have hlt : line.trigger.time 0 < line.trigger.time 1 := Periodic.time_lt_iff.mpr (by decide)
      rw [Periodic.time_zero] at hlt
      exact hahead.trans hlt
    constructor
    · intro h
      by_contra hnot
      push Not at hnot
      obtain ⟨_, hone, hshort, hmem⟩ := hnot
      -- the second held item is lost
      have hpoint := mem_pointsFrom_of_le hstep hmem hsecond (by omega) (hgrid.dvd 1)
      have hreleased := h _ hpoint (Periodic.fires_time_iff.mpr ⟨by decide, by omega⟩) hmem
      have hlt : 1 < line.released.budget := (Periodic.fires_time_iff.mp hreleased).2
      exact absurd (hmany hlt) (by omega)
    · rintro hcond _ _ ⟨k, hk, hkb, rfl⟩ hmem
      refine ⟨k, hk, ?_, rfl⟩
      rcases hkept with hall | ⟨honly, hshort⟩
      · omega
      · -- only the first is released; the others' release is out of reach
        by_contra hlate
        rcases hcond with hpast | hone | hlong | hout
        · omega
        · omega
        · omega
        · have hle : line.trigger.time 1 ≤ line.trigger.time k :=
            Periodic.time_le_iff.mpr (by omega)
          have hsplit : line.trigger.time 1 + line.lag - t =
              (line.trigger.time 1 - t) + line.lag := by ring
          refine hout (mem_pointsFrom_of_le hstep hmem (by omega) (by omega) ?_)
          rw [hsplit]
          exact (hgrid.dvd 1).add hlag

end DelayLine

end OLog.Lib
