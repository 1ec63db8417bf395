import OLog.Isolation

/-!
The continuity check. The drain loop checks it whenever it releases a feed at
the expected tick, but it compares the turnover of the *arriving* feed, not of
the released one, with the stored pair, and stores the arriving feed's
turnover. So the check sees only some arrivals, the checkpoints, and it sees
them in the order of arrival. There is no alarm exactly if their turnover does
not decrease in that order.
-/

namespace OLog

open Lib

/-- The two turnover figures, compared component by component. -/
def StatisticsFeed.turnover (sf : StatisticsFeed) : Rat × Int :=
  (sf.turnoverValue, sf.turnoverVolume)

namespace Tracker

/-- The stored pair. -/
def pair (tracker : Tracker) : Rat × Int := (tracker.preValue, tracker.preVolume)

theorem below_iff (tracker : Tracker) (sf : StatisticsFeed) :
    Below sf tracker ↔ ¬ tracker.pair ≤ sf.turnover := by
  simp only [Below, pair, StatisticsFeed.turnover, Prod.mk_le_mk, not_and_or, not_le]

/-- The feed is early and finds a feed at the expected tick waiting. -/
def Checks (tracker : Tracker) (sf : StatisticsFeed) : Prop :=
  tracker.expectTimestamp < sf.exchangeTimestamp ∧
    ∃ f ∈ tracker.waiting, f.exchangeTimestamp = tracker.expectTimestamp

theorem run_pos_iff {tracker : Tracker} {sf : StatisticsFeed}
    (hearly : tracker.expectTimestamp < sf.exchangeTimestamp) :
    0 < tracker.run sf ↔ tracker.Checks sf := by
  have hmem : tracker.expectTimestamp ∈ timestamps (sf ::ₘ tracker.waiting) ↔
      ∃ f ∈ tracker.waiting, f.exchangeTimestamp = tracker.expectTimestamp := by
    rw [mem_timestamps]
    constructor
    · rintro ⟨f, hf, heq⟩
      rcases Multiset.mem_cons.mp hf with rfl | hf
      · omega
      · exact ⟨f, hf, heq⟩
    · rintro ⟨f, hf, heq⟩
      exact ⟨f, Multiset.mem_cons_of_mem hf, heq⟩
  constructor
  · intro hpos
    refine ⟨hearly, hmem.mp ?_⟩
    simpa using mem_of_lt_run hpos
  · rintro ⟨_, hwaits⟩
    unfold run
    rw [gapIndex_of_mem interval_pos (hmem.mpr hwaits)]
    omega

/-- No alert in the list is the monotonicity one. -/
def Quiet (alerts : List Alert) : Prop := ∀ alert ∈ alerts, alert.isMonotonicity = false

theorem quiet_append {first second : List Alert} :
    Quiet (first ++ second) ↔ Quiet first ∧ Quiet second :=
  List.forall_mem_append

theorem quiet_invalid (sf : StatisticsFeed) : Quiet (invalidAlerts sf) := by
  unfold invalidAlerts
  split_ifs
  · simp [Quiet, Alert.isMonotonicity]
  · simp [Quiet]

theorem quiet_continuity_iff {tracker : Tracker} {sf : StatisticsFeed}
    (hearly : tracker.expectTimestamp < sf.exchangeTimestamp) :
    Quiet (tracker.continuityAlerts sf (tracker.run sf)) ↔
      (tracker.Checks sf → tracker.pair ≤ sf.turnover) := by
  rw [← run_pos_iff hearly]
  unfold continuityAlerts
  split_ifs with hbelow
  · have hnot := (below_iff tracker sf).mp hbelow
    simp only [Quiet, List.mem_replicate, monotonicityAlert, Alert.isMonotonicity]
    constructor
    · intro hquiet hpos
      exact absurd (hquiet _ ⟨hpos.ne', rfl⟩) (by simp)
    · rintro hchain alert ⟨hne, _⟩
      exact absurd (hchain (by omega)) hnot
  · have hle : tracker.pair ≤ sf.turnover := by
      by_contra hnot
      exact hbelow ((below_iff tracker sf).mpr hnot)
    simp [Quiet, hle]

/-- One feed: it is quiet exactly if it is not a checkpoint or not below the
stored pair, and a quiet checkpoint becomes the stored pair. -/
theorem receive_quiet_iff (tracker : Tracker) (sf : StatisticsFeed) :
    (Quiet (tracker.receive sf).2 ↔ (tracker.Checks sf → tracker.pair ≤ sf.turnover)) ∧
      (tracker.Checks sf → tracker.pair ≤ sf.turnover →
        (tracker.receive sf).1.pair = sf.turnover) ∧
      (¬ tracker.Checks sf → (tracker.receive sf).1.pair = tracker.pair) := by
  rcases lt_trichotomy tracker.expectTimestamp sf.exchangeTimestamp with ht | ht | ht
  · have hpair : (tracker.receive sf).1.pair = (tracker.accept sf (tracker.run sf)).pair := by
      by_cases hsize : queueLimit < (tracker.kept sf).card
      · rw [receive_early_miss ht hsize]
        rfl
      · rw [receive_early_wait ht (by omega)]
        rfl
    have hquiet : Quiet (tracker.receive sf).2 ↔
        Quiet (tracker.continuityAlerts sf (tracker.run sf)) := by
      by_cases hsize : queueLimit < (tracker.kept sf).card
      · rw [receive_early_miss ht hsize, quiet_append]
        simp [Quiet, Alert.isMonotonicity]
      · rw [receive_early_wait ht (by omega)]
    refine ⟨hquiet.trans (quiet_continuity_iff ht), ?_, ?_⟩
    · intro hchecks hle
      have hpos := (run_pos_iff ht).mpr hchecks
      have hnot : ¬ (tracker.run sf = 0 ∨ Below sf tracker) := by
        rintro (hzero | hbelow)
        · omega
        · exact (below_iff tracker sf).mp hbelow hle
      rw [hpair, accept, if_neg hnot]
      rfl
    · intro hchecks
      have hzero : tracker.run sf = 0 := by
        by_contra hne
        exact hchecks ((run_pos_iff ht).mp (by omega))
      rw [hpair, accept, if_pos (Or.inl hzero)]
  · have hno : ¬ tracker.Checks sf := fun hchecks => by
      have := hchecks.1
      omega
    rw [receive_onTime ht]
    simp [Quiet, hno, pair]
  · have hno : ¬ tracker.Checks sf := fun hchecks => by
      have := hchecks.1
      omega
    rw [receive_late ht]
    simp [Quiet, hno, delayAlert, Alert.isMonotonicity]

end Tracker

namespace Context

/-- The feed is early and finds a feed at the expected tick in the queue. -/
def Checks (context : Context) (sf : StatisticsFeed) : Prop :=
  context.expectTimestamp < sf.exchangeTimestamp ∧
    ∃ r ∈ context.queue.toList, r.exchangeTimestamp = context.expectTimestamp

instance (context : Context) (sf : StatisticsFeed) : Decidable (context.Checks sf) := by
  unfold Checks
  infer_instance

theorem checks_view (context : Context) (sf : StatisticsFeed) :
    context.view.Checks sf ↔ context.Checks sf := by
  simp [Tracker.Checks, Checks, view, FeedRef.exchangeTimestamp]

end Context

section Stream

variable {code : String}

def Arrival.turnover (a : Arrival code) : Rat × Int := a.sf.turnover

/-- The message is the first one, or its `exec` makes a continuity check. -/
def IsCheckpoint (seen : List (Arrival code)) (a : Arrival code) : Prop :=
  seen = [] ∨ ∃ context ∈ contextAfter seen, context.Checks a.sf

instance (seen : List (Arrival code)) (a : Arrival code) : Decidable (IsCheckpoint seen a) :=
  inferInstanceAs (Decidable (seen = [] ∨ ∃ context ∈ contextAfter seen, context.Checks a.sf))

/-- The checkpoints among the messages that follow `seen`, in order of arrival. -/
def checkpointsFrom (seen : List (Arrival code)) : List (Arrival code) → List (Arrival code)
  | [] => []
  | a :: rest =>
      if IsCheckpoint seen a then a :: checkpointsFrom (seen ++ [a]) rest
      else checkpointsFrom (seen ++ [a]) rest

def checkpoints (arrivals : List (Arrival code)) : List (Arrival code) :=
  checkpointsFrom [] arrivals

theorem checkpointsFrom_concat (seen arrivals : List (Arrival code)) (a : Arrival code) :
    checkpointsFrom seen (arrivals ++ [a]) = checkpointsFrom seen arrivals ++
      (if IsCheckpoint (seen ++ arrivals) a then [a] else []) := by
  induction arrivals generalizing seen with
  | nil => simp [checkpointsFrom]
  | cons b rest ih =>
      have hrest := ih (seen ++ [b])
      rw [List.append_assoc, List.singleton_append] at hrest
      simp only [List.cons_append, checkpointsFrom, hrest]
      split_ifs <;> rfl

/-- As long as there was no alarm, the stored pair is the turnover of one of
the checkpoints and bounds that of all of them. -/
structure Anchored (arrivals : List (Arrival code)) (tracker : Tracker) : Prop where
  mem : ∃ a ∈ checkpoints arrivals, tracker.pair = a.turnover
  bound : ∀ a ∈ checkpoints arrivals, a.turnover ≤ tracker.pair

theorem Anchored.le_iff {arrivals : List (Arrival code)} {tracker : Tracker}
    (h : Anchored arrivals tracker) (b : Arrival code) :
    tracker.pair ≤ b.turnover ↔ ∀ a ∈ checkpoints arrivals, a.turnover ≤ b.turnover := by
  constructor
  · intro hle a ha
    exact (h.bound a ha).trans hle
  · intro hall
    obtain ⟨a, ha, heq⟩ := h.mem
    rw [heq]
    exact hall a ha

theorem Anchored.checkpoint {arrivals : List (Arrival code)} {before after : Tracker}
    (h : Anchored arrivals before) {b : Arrival code} (hle : before.pair ≤ b.turnover)
    (hpair : after.pair = b.turnover)
    (hcheckpoints : checkpoints (arrivals ++ [b]) = checkpoints arrivals ++ [b]) :
    Anchored (arrivals ++ [b]) after := by
  refine ⟨⟨b, ?_, hpair⟩, ?_⟩
  · rw [hcheckpoints]
    exact List.mem_append_right _ (List.mem_singleton_self b)
  · intro a ha
    rw [hcheckpoints] at ha
    rw [hpair]
    rcases List.mem_append.mp ha with ha | ha
    · exact (h.bound a ha).trans hle
    · rw [List.mem_singleton.mp ha]

/-- The first message is on time and opens with its own turnover. -/
theorem first_quiet {first : StatisticsFeed} (hvalue : 0 < first.turnoverValue)
    (hvolume : 0 < first.turnoverVolume) :
    ∃ tracker, (Tracker.track [first]).1 = some tracker ∧ tracker.pair = first.turnover ∧
      Tracker.Quiet (Tracker.track [first]).2 := by
  rw [Tracker.track_first]
  refine ⟨_, rfl, ?_, Tracker.quiet_invalid first⟩
  simp [Tracker.pair, Tracker.opened, StatisticsFeed.turnover, hvalue, hvolume]

/-- After a first message, the stream's checkpoints are the tracker's. -/
theorem isCheckpoint_iff {first : Arrival code} {rest : List (Arrival code)} {tracker : Tracker}
    (htrack : (Tracker.track ((first :: rest).map Arrival.sf)).1 = some tracker)
    (b : Arrival code) : IsCheckpoint (first :: rest) b ↔ tracker.Checks b.sf := by
  have hview := contextAfter_view (first :: rest)
  rw [htrack] at hview
  obtain ⟨context, hcontext, rfl⟩ := Option.map_eq_some_iff.mp hview
  rw [context.checks_view]
  simp [IsCheckpoint, hcontext]

theorem quiet_track_concat {feeds : List StatisticsFeed} {tracker : Tracker}
    (htrack : (Tracker.track feeds).1 = some tracker) (sf : StatisticsFeed) :
    Tracker.Quiet (Tracker.track (feeds ++ [sf])).2 ↔
      Tracker.Quiet (Tracker.track feeds).2 ∧
        (tracker.Checks sf → tracker.pair ≤ sf.turnover) := by
  rw [Tracker.track_concat, htrack, Tracker.quiet_append, ← (tracker.receive_quiet_iff sf).1]
  change _ ∧ Tracker.Quiet (Tracker.invalidAlerts sf ++ (tracker.receive sf).2) ↔ _
  rw [Tracker.quiet_append]
  simp only [Tracker.quiet_invalid, true_and]

/-- One more message: the stream stays quiet, and anchored, exactly if the
message is not a checkpoint or its turnover is not below the others'. -/
theorem Anchored.concat {first : Arrival code} {rest : List (Arrival code)} {tracker : Tracker}
    (htrack : (Tracker.track ((first :: rest).map Arrival.sf)).1 = some tracker)
    (h : Anchored (first :: rest) tracker) (b : Arrival code)
    (hle : tracker.Checks b.sf → tracker.pair ≤ b.turnover) :
    Anchored ((first :: rest) ++ [b]) (tracker.receive b.sf).1 := by
  obtain ⟨_, hnew, hsame⟩ := tracker.receive_quiet_iff b.sf
  have hcheckpoints : checkpoints ((first :: rest) ++ [b]) = checkpoints (first :: rest) ++
      (if IsCheckpoint (first :: rest) b then [b] else []) :=
    checkpointsFrom_concat [] (first :: rest) b
  by_cases hcheck : tracker.Checks b.sf
  · rw [if_pos ((isCheckpoint_iff htrack b).mpr hcheck)] at hcheckpoints
    exact h.checkpoint (hle hcheck) (hnew hcheck (hle hcheck)) hcheckpoints
  · rw [if_neg (fun hb => hcheck ((isCheckpoint_iff htrack b).mp hb)),
      List.append_nil] at hcheckpoints
    refine ⟨?_, ?_⟩
    · rw [hcheckpoints, hsame hcheck]
      exact h.mem
    · rw [hcheckpoints, hsame hcheck]
      exact h.bound

theorem pairwise_checkpoints_concat {first : Arrival code} {rest : List (Arrival code)}
    {tracker : Tracker}
    (htrack : (Tracker.track ((first :: rest).map Arrival.sf)).1 = some tracker)
    (h : Anchored (first :: rest) tracker) (b : Arrival code) :
    (checkpoints ((first :: rest) ++ [b])).Pairwise (fun a b => a.turnover ≤ b.turnover) ↔
      (checkpoints (first :: rest)).Pairwise (fun a b => a.turnover ≤ b.turnover) ∧
        (tracker.Checks b.sf → tracker.pair ≤ b.turnover) := by
  have hcheckpoints : checkpoints ((first :: rest) ++ [b]) = checkpoints (first :: rest) ++
      (if IsCheckpoint (first :: rest) b then [b] else []) :=
    checkpointsFrom_concat [] (first :: rest) b
  rw [hcheckpoints, ← isCheckpoint_iff htrack b]
  split_ifs with hcheck
  · rw [List.pairwise_append, h.le_iff b]
    simp [hcheck]
  · rw [List.append_nil]
    simp [hcheck]

/-- Whole streams: no alarm exactly if the checkpoints come in the order of
their turnover. -/
theorem track_quiet_iff {first : Arrival code} (hvalue : 0 < first.sf.turnoverValue)
    (hvolume : 0 < first.sf.turnoverVolume) (rest : List (Arrival code)) :
    ∃ tracker, (Tracker.track ((first :: rest).map Arrival.sf)).1 = some tracker ∧
      (Tracker.Quiet (Tracker.track ((first :: rest).map Arrival.sf)).2 ↔
        (checkpoints (first :: rest)).Pairwise (fun a b => a.turnover ≤ b.turnover)) ∧
      (Tracker.Quiet (Tracker.track ((first :: rest).map Arrival.sf)).2 →
        Anchored (first :: rest) tracker) := by
  induction rest using List.reverseRecOn with
  | nil =>
      have hone : checkpoints [first] = [first] := by
        simp [checkpoints, checkpointsFrom, IsCheckpoint]
      obtain ⟨tracker, htrack, hpair, hquiet⟩ := first_quiet hvalue hvolume
      refine ⟨tracker, htrack, ⟨fun _ => ?_, fun _ => hquiet⟩, fun _ => ⟨⟨first, ?_, hpair⟩, ?_⟩⟩
      · rw [hone]
        exact List.pairwise_singleton _ _
      · rw [hone]
        exact List.mem_singleton_self first
      · intro a ha
        rw [hone] at ha
        rw [List.mem_singleton.mp ha, hpair]
        exact le_rfl
  | append_singleton rest b ih =>
      obtain ⟨tracker, htrack, hiff, hanchored⟩ := ih
      have hquiet := quiet_track_concat htrack b.sf
      rw [← List.map_singleton, ← List.map_append] at hquiet
      have hconcat := Tracker.track_concat ((first :: rest).map Arrival.sf) b.sf
      rw [htrack, ← List.map_singleton, ← List.map_append] at hconcat
      rw [← List.cons_append]
      refine ⟨(tracker.receive b.sf).1, by rw [hconcat]; rfl, ?_, ?_⟩
      · rw [hquiet]
        constructor
        · rintro ⟨hq, hle⟩
          exact (pairwise_checkpoints_concat htrack (hanchored hq) b).mpr ⟨hiff.mp hq, hle⟩
        · intro hpairwise
          have hbefore : (checkpoints (first :: rest)).Pairwise
              (fun a b => a.turnover ≤ b.turnover) := by
            unfold checkpoints at hpairwise
            rw [checkpointsFrom_concat] at hpairwise
            exact (List.pairwise_append.mp hpairwise).1
          have hq := hiff.mpr hbefore
          exact ⟨hq, ((pairwise_checkpoints_concat htrack (hanchored hq) b).mp hpairwise).2⟩
      · intro hq
        obtain ⟨hbefore, hle⟩ := hquiet.mp hq
        exact (hanchored hbefore).concat htrack b hle

/-- No 'should be monotonically increase' alert is recorded exactly if the
checkpoints arrive in the order of their turnover. -/
theorem no_monotonicity_alarm_iff (first : Arrival code) (rest : List (Arrival code))
    (hvalue : 0 < first.sf.turnoverValue) (hvolume : 0 < first.sf.turnoverVolume) :
    ∃ s, stream (first :: rest) = .ok s ∧
      ((∀ alert ∈ s.recorded, alert.isMonotonicity = false) ↔
        (checkpoints (first :: rest)).Pairwise (fun a b => a.turnover ≤ b.turnover)) := by
  obtain ⟨s, hrun, _, _, hrecorded⟩ := stream_tracks (first :: rest)
  obtain ⟨_, _, hiff, _⟩ := track_quiet_iff hvalue hvolume rest
  refine ⟨s, hrun, ?_⟩
  rw [hrecorded]
  exact hiff

/-- A gap that is filled in order: the checkpoint raises no alarm. -/
theorem no_monotonicity_alarm_gap_filled :
    ∃ s, stream [sampleArrival 0 1, sampleArrival 2 3, sampleArrival 1 2, sampleArrival 3 4] =
        .ok s ∧ ∀ alert ∈ s.recorded, alert.isMonotonicity = false := by
  obtain ⟨s, hrun, hiff⟩ := no_monotonicity_alarm_iff (sampleArrival 0 1)
    [sampleArrival 2 3, sampleArrival 1 2, sampleArrival 3 4] (by decide +kernel) (by decide)
  exact ⟨s, hrun, hiff.mpr (by decide +kernel)⟩

/-- Seven ticks with strictly increasing turnover, none of them twice: tick 9
becomes the stored pair when it releases tick 2, and tick 5 falls below it. -/
theorem monotonicity_alarm_under_reordering :
    let arrivals := [0, 2, 1, 9, 4, 3, 5].map (fun i => sampleArrival i (i + 1))
    (arrivals.map Arrival.timestamp).Nodup ∧
      (∀ a ∈ arrivals, 0 < a.sf.turnoverValue ∧ 0 < a.sf.turnoverVolume) ∧
      (∀ a ∈ arrivals, ∀ b ∈ arrivals, a.timestamp ≤ b.timestamp → a.turnover ≤ b.turnover) ∧
      ∃ s context, stream arrivals = .ok s ∧
        s.state.contextMap.getContext "rb1000" = some context ∧
        ∃ alert ∈ s.recorded, alert.isMonotonicity = true := by
  refine ⟨by decide, by decide +kernel, by decide +kernel, ?_⟩
  apply stream_exists_of_check
  decide +kernel

end Stream

end OLog
