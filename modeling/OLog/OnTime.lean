import OLog.Continuity

/-!
The fast path. A feed that comes exactly at the expected tick leaves `exec`
before the continuity check: its turnover is neither compared nor stored. In a
stream whose messages are all on time the stored pair therefore stays the
first feed's. The walk that checks and stores every feed is the reference.
-/

namespace OLog

open Lib

/-- The turnover pair that a feedcode's first feed stores. -/
def StatisticsFeed.clampedTurnover (sf : StatisticsFeed) : Rat × Int :=
  (if sf.turnoverValue > 0 then sf.turnoverValue else 0,
    if sf.turnoverVolume > 0 then sf.turnoverVolume else 0)

/-- The reference: a feed below the stored pair raises one alert and leaves the
pair, any other feed replaces it. -/
def turnoverWalk (pair : Rat × Int) : List StatisticsFeed → (Rat × Int) × List Alert
  | [] => (pair, [])
  | sf :: rest =>
      if sf.turnoverValue < pair.1 ∨ sf.turnoverVolume < pair.2 then
        ((turnoverWalk pair rest).1, Tracker.monotonicityAlert sf :: (turnoverWalk pair rest).2)
      else turnoverWalk sf.turnover rest

theorem le_turnover_of_not_below {pair : Rat × Int} {sf : StatisticsFeed}
    (h : ¬ (sf.turnoverValue < pair.1 ∨ sf.turnoverVolume < pair.2)) : pair ≤ sf.turnover := by
  rw [not_or, not_lt, not_lt] at h
  exact ⟨h.1, h.2⟩

/-- The pair only grows. -/
theorem le_turnoverWalk (pair : Rat × Int) (feeds : List StatisticsFeed) :
    pair ≤ (turnoverWalk pair feeds).1 := by
  induction feeds generalizing pair with
  | nil => exact le_rfl
  | cons sf rest ih =>
      rw [turnoverWalk]
      split_ifs with hbelow
      · exact ih pair
      · exact (le_turnover_of_not_below hbelow).trans (ih sf.turnover)

/-- The walk ends as it began, without an alert, only over feeds that repeat the
stored pair. -/
theorem turnoverWalk_eq_iff (pair : Rat × Int) (feeds : List StatisticsFeed) :
    turnoverWalk pair feeds = (pair, []) ↔ ∀ sf ∈ feeds, sf.turnover = pair := by
  induction feeds generalizing pair with
  | nil => simp [turnoverWalk]
  | cons sf rest ih =>
      rw [turnoverWalk, List.forall_mem_cons]
      split_ifs with hbelow
      · constructor
        · intro h
          cases congrArg Prod.snd h
        · rintro ⟨heq, _⟩
          rw [← heq] at hbelow
          simp [StatisticsFeed.turnover] at hbelow
      · have hle := le_turnover_of_not_below hbelow
        constructor
        · intro h
          have hback : sf.turnover ≤ pair := by
            have hwalk := le_turnoverWalk sf.turnover rest
            rwa [h] at hwalk
          have heq : sf.turnover = pair := le_antisymm hback hle
          exact ⟨heq, (ih pair).mp (heq ▸ h)⟩
        · rintro ⟨heq, hrest⟩
          rw [heq]
          exact (ih pair).mpr hrest

section Stream

variable {code : String}

/-- Every message after the first comes exactly at the expected tick. -/
def AllOnTime (first : Arrival code) (rest : List (Arrival code)) : Prop :=
  ∀ n (hn : n < rest.length),
    expectAfter (first :: rest.take n) = some rest[n].timestamp

instance (first : Arrival code) (rest : List (Arrival code)) :
    Decidable (AllOnTime first rest) :=
  inferInstanceAs (Decidable (∀ n (hn : n < rest.length),
    expectAfter (first :: rest.take n) = some rest[n].timestamp))

theorem AllOnTime.of_concat {first : Arrival code} {rest : List (Arrival code)}
    {a : Arrival code} (h : AllOnTime first (rest ++ [a])) :
    AllOnTime first rest ∧ expectAfter (first :: rest) = some a.timestamp := by
  constructor
  · intro n hn
    have hnext := h n (by simp; omega)
    rwa [List.take_append_of_le_length hn.le, List.getElem_append_left hn] at hnext
  · have hlast := h rest.length (by simp)
    simpa using hlast

/-- What an on-time stream leaves: the first feed's pair, the tick after the last
one, and no continuity alert. -/
structure OnTimeSoFar (first : Arrival code) (rest : List (Arrival code)) (tracker : Tracker) :
    Prop where
  pair : tracker.pair = first.sf.clampedTurnover
  quiet : Tracker.Quiet (Tracker.track ((first :: rest).map Arrival.sf)).2
  ordered : (first :: rest).Pairwise (fun a b => a.timestamp < b.timestamp)
  passed : ∀ a ∈ first :: rest, a.timestamp < tracker.expectTimestamp

/-- One more feed, at the expected tick. -/
theorem OnTimeSoFar.concat {first a : Arrival code} {rest : List (Arrival code)}
    {tracker : Tracker} (h : OnTimeSoFar first rest tracker)
    (htrack : (Tracker.track ((first :: rest).map Arrival.sf)).1 = some tracker)
    (ht : tracker.expectTimestamp = a.timestamp) :
    OnTimeSoFar first (rest ++ [a]) (tracker.receive a.sf).1 := by
  have hno : ¬ tracker.Checks a.sf := fun hchecks => ht.not_lt hchecks.1
  have hpos := interval_pos
  have hquiet := quiet_track_concat htrack a.sf
  rw [← List.map_singleton, ← List.map_append] at hquiet
  refine ⟨?_, ?_, ?_, ?_⟩
  · rw [(tracker.receive_quiet_iff a.sf).2.2 hno, h.pair]
  · exact hquiet.mpr ⟨h.quiet, fun hchecks => absurd hchecks hno⟩
  · rw [← List.cons_append, List.pairwise_append]
    refine ⟨h.ordered, List.pairwise_singleton _ _, ?_⟩
    intro b hb c hc
    rw [List.mem_singleton.mp hc, ← ht]
    exact h.passed b hb
  · intro b hb
    rw [Tracker.receive_onTime ht]
    change b.timestamp < tracker.expectTimestamp + interval
    rw [← List.cons_append, List.mem_append, List.mem_singleton] at hb
    rcases hb with hb | rfl
    · have := h.passed b hb
      omega
    · omega

theorem onTimeSoFar (first : Arrival code) {rest : List (Arrival code)}
    (h : AllOnTime first rest) :
    ∃ tracker, (Tracker.track ((first :: rest).map Arrival.sf)).1 = some tracker ∧
      OnTimeSoFar first rest tracker := by
  induction rest using List.reverseRecOn with
  | nil =>
      have htrack := Tracker.track_first first.sf
      refine ⟨_, congrArg Prod.fst htrack, rfl, ?_, List.pairwise_singleton _ _, ?_⟩
      · change Tracker.Quiet (Tracker.track [first.sf]).2
        rw [htrack]
        exact Tracker.quiet_invalid first.sf
      · intro a ha
        rw [List.mem_singleton.mp ha]
        exact lt_add_of_pos_right _ interval_pos
  | append_singleton rest a ih =>
      obtain ⟨hrest, hexpect⟩ := h.of_concat
      obtain ⟨tracker, htrack, hsofar⟩ := ih hrest
      have hview := contextAfter_view (first :: rest)
      rw [htrack] at hview
      obtain ⟨context, hcontext, hviewed⟩ := Option.map_eq_some_iff.mp hview
      have ht : tracker.expectTimestamp = a.timestamp := by
        rw [expectAfter, hcontext] at hexpect
        rw [← hviewed]
        exact Option.some.inj hexpect
      have hconcat := Tracker.track_concat ((first :: rest).map Arrival.sf) a.sf
      rw [htrack, ← List.map_singleton, ← List.map_append] at hconcat
      exact ⟨_, congrArg Prod.fst hconcat, hsofar.concat htrack ht⟩

/-- A stream of on-time messages records the continuity alerts of the reference
walk and ends with its pair exactly if every later feed repeats the first
feed's turnover, clamped at zero. -/
theorem on_time_continuity_iff (first : Arrival code) (rest : List (Arrival code))
    (honTime : AllOnTime first rest) :
    ∃ s context, stream (first :: rest) = .ok s ∧
      s.state.contextMap.getContext code = some context ∧
      (first :: rest).Pairwise (fun a b => a.timestamp < b.timestamp) ∧
      (turnoverWalk first.sf.clampedTurnover (rest.map Arrival.sf) =
          ((context.preValue, context.preVolume), s.recorded.filter Alert.isMonotonicity) ↔
        ∀ a ∈ rest, a.turnover = first.sf.clampedTurnover) := by
  obtain ⟨s, hrun, _, htracker, hrecorded⟩ := stream_tracks (first :: rest)
  obtain ⟨tracker, htrack, h⟩ := onTimeSoFar first honTime
  rw [htrack] at htracker
  obtain ⟨context, hcontext, hview⟩ := Option.map_eq_some_iff.mp htracker
  have hpair : (context.preValue, context.preVolume) = first.sf.clampedTurnover := by
    rw [← h.pair, ← hview]
    rfl
  have hnone : s.recorded.filter Alert.isMonotonicity = [] := by
    rw [hrecorded, List.filter_eq_nil_iff]
    intro alert halert
    simp [h.quiet alert halert]
  refine ⟨s, context, hrun, hcontext, h.ordered, ?_⟩
  rw [hpair, hnone, turnoverWalk_eq_iff, List.forall_mem_map]
  rfl

theorem on_time_continuity_repeated :
    ∃ s context, stream [sampleArrival 0 5, sampleArrival 1 5] = .ok s ∧
      s.state.contextMap.getContext "rb1000" = some context ∧
      turnoverWalk (5, 5) [sampleFeed 1 5] =
        ((context.preValue, context.preVolume), s.recorded.filter Alert.isMonotonicity) := by
  obtain ⟨s, context, hrun, hcontext, _, hiff⟩ :=
    on_time_continuity_iff (sampleArrival 0 5) [sampleArrival 1 5] (by decide +kernel)
  have hclamped : (sampleArrival 0 5).sf.clampedTurnover = (5, 5) := by decide +kernel
  rw [hclamped] at hiff
  exact ⟨s, context, hrun, hcontext, hiff.mpr (by decide +kernel)⟩

/-- Turnover falls from 5 to 3 on time: the reference raises an alert, the
processor does not. -/
theorem on_time_fall_unnoticed :
    AllOnTime (sampleArrival 0 5) [sampleArrival 1 3] ∧
      (turnoverWalk (sampleArrival 0 5).sf.clampedTurnover [sampleFeed 1 3]).2 =
        [Tracker.monotonicityAlert (sampleFeed 1 3)] ∧
      ∃ s context, stream [sampleArrival 0 5, sampleArrival 1 3] = .ok s ∧
        s.state.contextMap.getContext "rb1000" = some context ∧
        s.recorded.filter Alert.isMonotonicity = [] := by
  refine ⟨by decide +kernel, by decide +kernel, ?_⟩
  apply stream_exists_of_check
  decide +kernel

end Stream

end OLog
