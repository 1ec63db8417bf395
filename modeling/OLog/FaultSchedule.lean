import OLog.Passes

/-!
When the faults of a thread are due. Each kind of fault has a trigger; it goes
off when the feed's timestamp, in tenths of a second, equals the next time of
the schedule. The schedule for exchanged prices is started with the interval of
another one, so it keeps to its own times only if the two intervals are the
same.
-/

namespace OLog.Generator

open Lib

/-- The state of a schedule at the tick of its feed: `p` is the trigger that it
stands for. -/
structure ThreadState.Follows (conf : Conf) (mark : Mark) (p : Periodic) (s : ThreadState) :
    Prop where
  ranged : inRange s.feed.feedCodeId (conf.fault mark).feedCodeStartId
    (conf.fault mark).instrumentAmount
  budget : p.budget = (conf.fault mark).amount
  period : p.period = (conf.fault mark).interval * 1000000000
  tenths : 100000000 ∣ s.feed.timestamp
  grid : p.OnGrid 500000000 s.feed.timestamp
  next : p.time (s.feed.schedule mark).current = 100000000 * (s.feed.schedule mark).next
  passed : p.Passed s.feed.timestamp (s.feed.schedule mark).current

namespace ThreadState.Follows

variable {conf : Conf} {mark : Mark} {p : Periodic} {s : ThreadState}

theorem due_iff (h : s.Follows conf mark p) :
    due (conf.fault mark) (s.feed.schedule mark) s.feed.feedCodeId
      (s.feed.timestamp + 500000000) ↔ p.Fires (s.feed.timestamp + 500000000) := by
  have htenths := h.tenths
  have hnext := h.next
  rw [h.passed.fires_iff h.grid (by decide), h.budget]
  unfold due
  constructor
  · rintro ⟨_, hcurrent, htime⟩
    exact ⟨hcurrent, by omega⟩
  · rintro ⟨hcurrent, htime⟩
    exact ⟨h.ranged, hcurrent, by omega⟩

/-- The fault goes into the next feed exactly if the trigger goes off there. -/
theorem faulty_iff (h : s.Follows conf mark p) (inputs : PassInputs) :
    (s.next conf inputs).Faulty conf mark ↔ p.Fires (s.next conf inputs).timestamp := by
  have hdue := h.due_iff
  unfold Feed.Faulty
  rw [next_schedule, next_feedCodeId, next_timestamp]
  exact hdue

theorem pass (h : s.Follows conf mark p) (randomLogSet : List String) (nowTime : Int)
    (inputs : PassInputs) : (s.pass conf randomLogSet nowTime inputs).Follows conf mark p := by
  by_cases hsends : s.Sends nowTime
  · obtain ⟨htimestamp, hid⟩ := pass_feed s conf randomLogSet nowTime inputs hsends
    have hschedule := pass_schedule s conf randomLogSet nowTime inputs hsends mark
    have hdue := h.due_iff
    have htenths := h.tenths
    refine ⟨by rw [hid]; exact h.ranged, h.budget, h.period, by rw [htimestamp]; omega,
      by rw [htimestamp]; exact h.grid.next, ?_, ?_⟩
    · rw [hschedule]
      unfold Schedule.advance
      split_ifs
      · have hperiod := h.period
        have hnext := h.next
        rw [Periodic.time_succ]
        dsimp only
        omega
      · exact h.next
    · rw [hschedule, htimestamp]
      unfold Schedule.advance
      split_ifs with hnow
      · exact h.passed.fired h.grid (by decide) (hdue.mp hnow)
      · exact h.passed.idle h.grid (by decide) (fun hfires => hnow (hdue.mpr hfires))
  · rw [pass_of_not_sends s conf randomLogSet nowTime inputs hsends]
    exact ⟨h.ranged, h.budget, h.period, h.tenths, h.grid, h.next, h.passed⟩

/-- The run: every feed that is sent gets the fault exactly if the trigger goes
off at its tick. -/
theorem loopLog (h : s.Follows conf mark p) (randomLogSet : List String) (endTime : Int)
    (passes : List PassInputs) (nowTime : Int) :
    ∀ feed ∈ sentFeeds (loopLog conf randomLogSet endTime passes nowTime s),
      feed.Faulty conf mark ↔ p.Fires feed.timestamp := by
  intro feed hfeed
  obtain ⟨entry, hentry, hsent⟩ := mem_sentFeeds.mp hfeed
  refine forall_mem_loopLog (I := fun s => s.Follows conf mark p)
    (Q := fun entry => ∀ feed, entry.sent = some feed →
      (feed.Faulty conf mark ↔ p.Fires feed.timestamp)) ?_ passes nowTime h entry hentry feed hsent
  intro t nowTime inputs ht
  refine ⟨ht.pass randomLogSet nowTime inputs, ?_⟩
  intro feed hsent
  simp only [passLog] at hsent
  split_ifs at hsent
  cases hsent
  exact ht.faulty_iff inputs

end ThreadState.Follows

/-- The interval with which a schedule is started. -/
def Conf.firstInterval (conf : Conf) : Mark → Int
  | .errorBidAsk => conf.errorTurnover.interval
  | mark => (conf.fault mark).interval

/-- The time between two events of a schedule. -/
def Conf.period (conf : Conf) (mark : Mark) : Int := (conf.fault mark).interval * 1000000000

/-- The start time of a thread, rounded down to half a second. -/
def baseTime (nowTime : Int) : Int := nowTime / 500 * 500000000

theorem threadTicks_eq (conf : Conf) (inputs : ThreadInputs) :
    ∃ n, threadTicks conf inputs = pointsFrom 500000000 (baseTime inputs.init.timestamp) n :=
  clockTicks_eq _ _ _ _

theorem nanoseconds_pos {seconds : Int} (h : 0 < seconds) : 0 < seconds * 1000000000 := by
  omega

/-- The trigger that a schedule stands for. -/
def Conf.trigger (conf : Conf) (nowTime : Int) (mark : Mark)
    (hinterval : 0 < (conf.fault mark).interval) : Periodic where
  first := baseTime nowTime + conf.firstInterval mark * 1000000000
  period := conf.period mark
  budget := (conf.fault mark).amount
  period_pos := nanoseconds_pos hinterval

theorem startSchedules_schedule (feed : Feed) (conf : Conf) (nowTime : Int) (mark : Mark) :
    (startSchedules feed conf nowTime).schedule mark =
      ⟨nowTime / 500 * 5 + conf.firstInterval mark * 10, (feed.schedule mark).current⟩ := by
  cases mark <;> rfl

theorem threadStart_timestamp (conf : Conf) (i : Nat) (inputs : ThreadInputs) :
    (threadStart conf i inputs).feed.timestamp = baseTime inputs.init.timestamp := rfl

theorem threadStart_feedCodeId (conf : Conf) (i : Nat) (inputs : ThreadInputs) :
    (threadStart conf i inputs).feed.feedCodeId = i + conf.feedCodeStartId := rfl

theorem trigger_onGrid (conf : Conf) (nowTime timestamp : Int) (mark : Mark)
    (hinterval : 0 < (conf.fault mark).interval) :
    (conf.trigger nowTime mark hinterval).OnGrid 500000000 (baseTime timestamp) := by
  constructor
  · change 500000000 ∣ (conf.fault mark).interval * 1000000000
    omega
  · change 500000000 ∣
      baseTime nowTime + conf.firstInterval mark * 1000000000 - baseTime timestamp
    unfold baseTime
    omega

theorem threadStart_schedule (conf : Conf) (i : Nat) (inputs : ThreadInputs) (mark : Mark) :
    (threadStart conf i inputs).feed.schedule mark =
      ⟨inputs.nowTime / 500 * 5 + conf.firstInterval mark * 10, 0⟩ := by
  change (startSchedules _ conf inputs.nowTime).schedule mark = _
  rw [startSchedules_schedule]
  cases mark <;> rfl

theorem threadStart_follows {conf : Conf} {i : Nat} {inputs : ThreadInputs} {mark : Mark}
    (hinterval : 0 < (conf.fault mark).interval) (hamount : 0 < (conf.fault mark).amount)
    (hrange : inRange (i + conf.feedCodeStartId) (conf.fault mark).feedCodeStartId
      (conf.fault mark).instrumentAmount)
    (hahead : baseTime inputs.init.timestamp <
      (conf.trigger inputs.nowTime mark hinterval).first) :
    (threadStart conf i inputs).Follows conf mark (conf.trigger inputs.nowTime mark hinterval) := by
  have hschedule := threadStart_schedule conf i inputs mark
  refine ⟨by rw [threadStart_feedCodeId]; exact hrange, rfl, rfl, ?_, ?_, ?_, ?_⟩
  · rw [threadStart_timestamp]
    unfold baseTime
    omega
  · rw [threadStart_timestamp]
    exact trigger_onGrid conf _ _ mark hinterval
  · rw [hschedule]
    change baseTime inputs.nowTime + conf.firstInterval mark * 1000000000 + 0 * _ =
      100000000 * (inputs.nowTime / 500 * 5 + conf.firstInterval mark * 10)
    unfold baseTime
    omega
  · rw [hschedule, threadStart_timestamp]
    exact Periodic.passed_zero hamount.le hahead

/-- A schedule whose next time is over stays where it is. -/
theorem ThreadState.not_faulty_of_over {conf : Conf} {mark : Mark} {s : ThreadState}
    (h : 100000000 * (s.feed.schedule mark).next ≤ s.feed.timestamp) (randomLogSet : List String)
    (endTime : Int) (passes : List PassInputs) (nowTime : Int) :
    ∀ feed ∈ sentFeeds (loopLog conf randomLogSet endTime passes nowTime s),
      ¬ feed.Faulty conf mark := by
  intro feed hfeed
  obtain ⟨entry, hentry, hsent⟩ := mem_sentFeeds.mp hfeed
  refine forall_mem_loopLog
    (I := fun s => 100000000 * (s.feed.schedule mark).next ≤ s.feed.timestamp)
    (Q := fun entry => ∀ feed, entry.sent = some feed → ¬ feed.Faulty conf mark)
    ?_ passes nowTime h entry hentry feed hsent
  intro t nowTime inputs ht
  have hover : ¬ due (conf.fault mark) (t.feed.schedule mark) t.feed.feedCodeId
      (t.feed.timestamp + 500000000) := by
    rintro ⟨_, _, htime⟩
    omega
  by_cases hsends : t.Sends nowTime
  · refine ⟨?_, ?_⟩
    · rw [pass_schedule t conf randomLogSet nowTime inputs hsends, Schedule.advance, if_neg hover,
        (pass_feed t conf randomLogSet nowTime inputs hsends).1]
      omega
    · intro feed hfeed hfaulty
      cases (passLog_of_sends t conf randomLogSet nowTime inputs hsends).1.symm.trans hfeed
      unfold Feed.Faulty at hfaulty
      rw [next_schedule, next_feedCodeId, next_timestamp] at hfaulty
      exact hover hfaulty
  · refine ⟨?_, ?_⟩
    · rw [pass_of_not_sends t conf randomLogSet nowTime inputs hsends]
      exact ht
    · intro feed hfeed
      cases (passLog_of_not_sends t conf randomLogSet nowTime inputs hsends).1.symm.trans hfeed

/-- In every run: the fault's condition holds of a feed exactly if the trigger
goes off at its tick, unless the trigger's first time was over at the start. -/
theorem threadLog_faulty_iff {conf : Conf} (words : String → List Sample) {i : Nat}
    (inputs : ThreadInputs) (mark : Mark) (hinterval : 0 < (conf.fault mark).interval)
    (hamount : 0 < (conf.fault mark).amount)
    (hrange : inRange (i + conf.feedCodeStartId) (conf.fault mark).feedCodeStartId
      (conf.fault mark).instrumentAmount) :
    ∀ feed ∈ sentFeeds (threadLog conf words i inputs), feed.Faulty conf mark ↔
      baseTime inputs.init.timestamp < (conf.trigger inputs.nowTime mark hinterval).first ∧
        (conf.trigger inputs.nowTime mark hinterval).Fires feed.timestamp := by
  intro feed hfeed
  rcases lt_or_ge (baseTime inputs.init.timestamp)
    (conf.trigger inputs.nowTime mark hinterval).first with hahead | hover
  · rw [(threadStart_follows hinterval hamount hrange hahead).loopLog _ _ _ _ feed hfeed]
    exact ⟨fun hfires => ⟨hahead, hfires⟩, fun hfires => hfires.2⟩
  · refine iff_of_false ?_ (fun h => absurd h.1 (not_lt.mpr hover))
    refine ThreadState.not_faulty_of_over ?_ _ _ _ _ feed hfeed
    rw [threadStart_schedule, threadStart_timestamp]
    change baseTime inputs.nowTime + conf.firstInterval mark * 1000000000 ≤ _ at hover
    unfold baseTime at hover ⊢
    dsimp only
    omega

/-- The ticks on which the condition for a fault holds. -/
def dueTicks (conf : Conf) (log : List PassLog) (mark : Mark) : Set Int :=
  {t | ∃ feed ∈ sentFeeds log, feed.Faulty conf mark ∧ feed.timestamp = t}

/-- The ticks that the configuration asks for. -/
def scheduledTicks (conf : Conf) (nowTime : Int) (mark : Mark) : Set Int :=
  {t | ∃ k, 1 ≤ k ∧ k ≤ (conf.fault mark).amount ∧
    t = baseTime nowTime + k * conf.period mark}

/-- The run generates every tick up to the last that is asked for. -/
def Covers (conf : Conf) (inputs : ThreadInputs) (mark : Mark) : Prop :=
  ∀ t, baseTime inputs.nowTime < t →
    t ≤ baseTime inputs.nowTime + (conf.fault mark).amount * conf.period mark →
    500000000 ∣ t → t ∈ threadTicks conf inputs

/-- The instrument is in the range of one fault only. -/
def OnlyIn (conf : Conf) (i : Nat) (mark : Mark) : Prop :=
  ∀ other, inRange (i + conf.feedCodeStartId) (conf.fault other).feedCodeStartId
    (conf.fault other).instrumentAmount ↔ other = mark

section Schedule

variable {conf : Conf} {words : String → List Sample} {i : Nat} {inputs : ThreadInputs}
  {mark : Mark}

theorem mem_dueTicks (words : String → List Sample)
    (hinterval : 0 < (conf.fault mark).interval)
    (hamount : 0 < (conf.fault mark).amount)
    (hrange : inRange (i + conf.feedCodeStartId) (conf.fault mark).feedCodeStartId
      (conf.fault mark).instrumentAmount)
    (hahead : baseTime inputs.init.timestamp <
      (conf.trigger inputs.nowTime mark hinterval).first) (t : Int) :
    t ∈ dueTicks conf (threadLog conf words i inputs) mark ↔
      t ∈ threadTicks conf inputs ∧ (conf.trigger inputs.nowTime mark hinterval).Fires t := by
  have hfaults := threadLog_faulty_iff words inputs mark hinterval hamount hrange
  rw [← threadLog_ticks conf words i]
  constructor
  · rintro ⟨feed, hfeed, hfaulty, rfl⟩
    exact ⟨List.mem_map_of_mem hfeed, ((hfaults feed hfeed).mp hfaulty).2⟩
  · rintro ⟨hmem, hfires⟩
    obtain ⟨feed, hfeed, rfl⟩ := List.mem_map.mp hmem
    exact ⟨feed, hfeed, (hfaults feed hfeed).mpr ⟨hahead, hfires⟩, rfl⟩

/-- A run that covers the schedule starts before it. -/
theorem Covers.start_le (hcovers : Covers conf inputs mark)
    (hinterval : 0 < (conf.fault mark).interval) (hamount : 0 < (conf.fault mark).amount) :
    baseTime inputs.init.timestamp ≤ baseTime inputs.nowTime := by
  have hperiod : conf.period mark = (conf.fault mark).interval * 1000000000 := rfl
  have hlong : conf.period mark ≤ (conf.fault mark).amount * conf.period mark :=
    le_mul_of_one_le_left (by omega) hamount
  have hfirst := hcovers (baseTime inputs.nowTime + 500000000) (by omega) (by omega)
    (by unfold baseTime; omega)
  obtain ⟨n, hn⟩ := threadTicks_eq conf inputs
  rw [hn] at hfirst
  have hlt := ((mem_pointsFrom (by decide)).mp hfirst).1
  unfold baseTime at hlt ⊢
  omega

theorem firstInterval_pos (hpos : ∀ other, 0 < (conf.fault other).interval) (mark : Mark) :
    0 < conf.firstInterval mark := by
  cases mark with
  | errorBidAsk => exact hpos .errorTurnover
  | _ => exact hpos _

/-- The multiples of the period up to the last scheduled one. -/
theorem Covers.mem_threadTicks (hcovers : Covers conf inputs mark)
    (hinterval : 0 < (conf.fault mark).interval) {k : Int} (hk : 1 ≤ k)
    (hle : k ≤ (conf.fault mark).amount) :
    baseTime inputs.nowTime + k * conf.period mark ∈ threadTicks conf inputs := by
  have hperiod : conf.period mark = (conf.fault mark).interval * 1000000000 := rfl
  have hlow : conf.period mark ≤ k * conf.period mark := le_mul_of_one_le_left (by omega) hk
  have hhigh : k * conf.period mark ≤ (conf.fault mark).amount * conf.period mark :=
    mul_le_mul_of_nonneg_right hle (by omega)
  have hdvd : (500000000 : Int) ∣ k * conf.period mark :=
    Dvd.dvd.mul_left (by omega : (500000000 : Int) ∣ conf.period mark) k
  have hgrid : (500000000 : Int) ∣ baseTime inputs.nowTime := by
    unfold baseTime
    omega
  exact hcovers _ (by omega) (by omega) (hgrid.add hdvd)

section

variable (hinterval : 0 < (conf.fault mark).interval) (hamount : 0 < (conf.fault mark).amount)
  (hfirst : 0 < conf.firstInterval mark) (hcovers : Covers conf inputs mark)
  {ticks : Set Int} (hticks : ∀ t, t ∈ ticks ↔ t ∈ threadTicks conf inputs ∧
    (conf.trigger inputs.nowTime mark hinterval).Fires t)

include hamount hfirst hcovers hticks

/-- If the ticks at which the trigger goes off are the scheduled ones, the first
of each is the same. -/
theorem interval_eq_of_scheduled (hsets : ticks = scheduledTicks conf inputs.nowTime mark) :
    conf.firstInterval mark = (conf.fault mark).interval := by
  have hperiod : conf.period mark = (conf.fault mark).interval * 1000000000 := rfl
  have hone : conf.period mark ≤ (conf.fault mark).amount * conf.period mark :=
    le_mul_of_one_le_left (by omega) hamount
  rcases lt_trichotomy (conf.firstInterval mark) (conf.fault mark).interval with
    hearly | heq | hlate
  · -- the first event comes before the first scheduled tick
    let t := baseTime inputs.nowTime + conf.firstInterval mark * 1000000000
    have hgrid : (500000000 : Int) ∣ baseTime inputs.nowTime := by
      unfold baseTime
      omega
    have hinjected : t ∈ ticks := by
      refine (hticks t).mpr ⟨hcovers t (by omega) (by omega) (by omega), 0, le_rfl, hamount, ?_⟩
      rw [Periodic.time_zero]
      rfl
    rw [hsets] at hinjected
    obtain ⟨k, hk, _, ht⟩ := hinjected
    have hle : conf.period mark ≤ k * conf.period mark := le_mul_of_one_le_left (by omega) hk
    omega
  · exact heq
  · -- the first scheduled tick comes before the first event
    let t := baseTime inputs.nowTime + 1 * conf.period mark
    have hscheduled : t ∈ scheduledTicks conf inputs.nowTime mark :=
      ⟨1, le_rfl, hamount, rfl⟩
    rw [← hsets] at hscheduled
    obtain ⟨_, k, hk, _, ht⟩ := (hticks t).mp hscheduled
    have hnonneg : 0 ≤ k * conf.period mark := mul_nonneg hk (by omega)
    change t = baseTime inputs.nowTime + conf.firstInterval mark * 1000000000 +
      k * conf.period mark at ht
    omega

omit hamount hfirst in
theorem scheduled_of_interval_eq (heq : conf.firstInterval mark = (conf.fault mark).interval) :
    ticks = scheduledTicks conf inputs.nowTime mark := by
  have htime : ∀ k, (conf.trigger inputs.nowTime mark hinterval).time k =
      baseTime inputs.nowTime + (k + 1) * conf.period mark := by
    intro k
    change baseTime inputs.nowTime + conf.firstInterval mark * 1000000000 +
      k * conf.period mark = baseTime inputs.nowTime + (k + 1) *
        ((conf.fault mark).interval * 1000000000)
    rw [heq]
    change _ + k * ((conf.fault mark).interval * 1000000000) = _
    ring
  ext t
  rw [hticks]
  constructor
  · rintro ⟨_, k, hk, hbudget, rfl⟩
    exact ⟨k + 1, by omega, hbudget, htime k⟩
  · rintro ⟨k, hk, hle, rfl⟩
    refine ⟨hcovers.mem_threadTicks hinterval hk hle, k - 1, by omega, ?_, ?_⟩
    · change k - 1 < (conf.fault mark).amount
      omega
    · rw [htime, sub_add_cancel]

end

/-- These ticks are the scheduled ones exactly if the schedule starts
with its own interval. -/
theorem dueTicks_eq_iff (words : String → List Sample)
    (hpos : ∀ other, 0 < (conf.fault other).interval)
    (hamount : 0 < (conf.fault mark).amount)
    (hrange : inRange (i + conf.feedCodeStartId) (conf.fault mark).feedCodeStartId
      (conf.fault mark).instrumentAmount)
    (hcovers : Covers conf inputs mark) :
    dueTicks conf (threadLog conf words i inputs) mark =
        scheduledTicks conf inputs.nowTime mark ↔
      conf.firstInterval mark = (conf.fault mark).interval := by
  have hfirst := firstInterval_pos hpos mark
  have hstart := hcovers.start_le (hpos mark) hamount
  have hahead : baseTime inputs.init.timestamp <
      (conf.trigger inputs.nowTime mark (hpos mark)).first := by
    change _ < baseTime inputs.nowTime + conf.firstInterval mark * 1000000000
    omega
  have hticks := mem_dueTicks words (hpos mark) hamount hrange hahead
  exact ⟨interval_eq_of_scheduled (hpos mark) hamount hfirst hcovers hticks,
    scheduled_of_interval_eq (hpos mark) hcovers hticks⟩

end Schedule

end OLog.Generator
