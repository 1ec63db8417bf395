import OLog.DelayQueue
import OLog.FaultSchedule

/-!
What the two logs of a thread show of its faults. On a tick on which a fault is
due, the records that it concerns are noted in the log of errors; the
instrument's log gets what the fault makes of them, or nothing if they are
dropped or delayed. On every other tick it gets the records as they are. The
conditions for all this are written out in the script once for the content of
a record, once for the log and once for the schedule.
-/

namespace OLog.Generator

/-- The record of a feed as it is. -/
def RecordKind.genuine (kind : RecordKind) (feed : Feed) (time : Int) : Record :=
  match kind with
  | .statistics => .statistics time feed.statisticsFeed
  | .price => .price time feed.priceFeed

/-- What a fault makes of a record. -/
def Mark.falsify : Mark → Record → Record
  | .errorTurnover, .statistics time sf =>
      .statistics time {sf with turnoverValue := 0, turnoverVolume := 0}
  | .errorBidAsk, .price time pf =>
      .price time {pf with bidPrice := pf.askPrice, askPrice := pf.bidPrice}
  | .errorPrice, .price time pf =>
      .price time {pf with bidPrice := 0, askPrice := 0 - pf.bidPrice}
  | .errorVolume, .price time pf =>
      .price time {pf with bidVolume := 0 - pf.bidVolume, askVolume := 0 - pf.askVolume}
  | _, result => result

/-- The fault keeps the record out of the instrument's log. -/
def Mark.withholds : Mark → Bool
  | .drop | .delay => true
  | _ => false

/-- The lines that the logs should get of a record, if its feed has the given
fault or none. -/
def RecordKind.lines (conf : Conf) (fault : Option Mark) (kind : RecordKind) (feed : Feed)
    (time : Int) : List Write :=
  if kind.Enabled conf then
    match fault.filter (· ∈ kind.marks) with
    | none => [⟨.own, .record (kind.genuine feed time)⟩]
    | some mark =>
        let result := mark.falsify (kind.genuine feed time)
        ⟨.error, .marked mark result⟩ ::
          if mark.withholds then [] else [⟨.own, .record result⟩]
  else []

/-- The pass sends the feed, and what it writes is what the fault, or its
absence, should lead to. Behind these lines may only be those of a delayed feed
of the run, without any fault. -/
structure PassLog.Shows (conf : Conf) (sentBefore : List Feed) (fault : Option Mark) (feed : Feed)
    (entry : PassLog) : Prop where
  sent : entry.sent = some feed
  lines : ∃ time time' resent, entry.writes =
      (RecordKind.statistics.lines conf fault feed time ++
        RecordKind.price.lines conf fault feed time') ++ resent ∧
    (resent = [] ∨ ∃ delayed ∈ sentBefore, delayed.Faulty conf .delay ∧ ∃ time time',
      resent = ⟨.error, .resend delayed.timestamp⟩ ::
        (RecordKind.statistics.lines conf none delayed time ++
          RecordKind.price.lines conf none delayed time'))

/-- Some line that the fault concerns is written at all. -/
def Mark.Shown (conf : Conf) (mark : Mark) : Prop :=
  ∃ kind : RecordKind, mark ∈ kind.marks ∧ kind.Enabled conf

/-- The ticks on which a fault is injected, by what the logs show. -/
def injectedTicks (conf : Conf) (log : List PassLog) (mark : Mark) : Set Int :=
  {t | mark.Shown conf ∧ ∃ entry ∈ log, ∃ feed,
    entry.Shows conf (sentFeeds log) (some mark) feed ∧ feed.timestamp = t}

section Lines

variable {conf : Conf} {feed : Feed} {mark : Mark} (kind : RecordKind)

theorem Mark.faultLines_eq (mark : Mark) (result : Record) : faultLines result (some mark) =
    ⟨.error, .marked mark result⟩ ::
      if mark.withholds then [] else [⟨.own, .record result⟩] := by
  cases mark <;> rfl

theorem RecordKind.falsify_genuine (h : mark ∉ kind.marks) (feed : Feed) (time : Int) :
    mark.falsify (kind.genuine feed time) = kind.genuine feed time := by
  cases kind with
  | statistics => cases mark <;> first | rfl | exact absurd (by decide) h
  | price => cases mark <;> first | rfl | exact absurd (by decide) h

theorem RecordKind.result_of_none (h : ∀ mark, ¬ feed.Faulty conf mark) (time : Int) :
    kind.result feed conf time = kind.genuine feed time := by
  cases kind with
  | statistics => exact if_neg (h _)
  | price => exact (if_neg (h _)).trans ((if_neg (h _)).trans (if_neg (h _)))

theorem Feed.fault_of_none (h : ∀ mark ∈ kind.marks, ¬ feed.Faulty conf mark) :
    feed.fault conf kind = none := by
  apply List.find?_eq_none.mpr
  intro mark hmark
  simpa using h mark hmark

section Only

variable (honly : ∀ other, feed.Faulty conf other → other = mark)

include honly

theorem RecordKind.result_of_faulty (hfaulty : feed.Faulty conf mark) (time : Int) :
    kind.result feed conf time = mark.falsify (kind.genuine feed time) := by
  have hother : ∀ other, other ≠ mark → ¬ feed.Faulty conf other :=
    fun other hne hdue => hne (honly other hdue)
  cases kind with
  | statistics => cases mark <;> simp [result, genuine, Mark.falsify, hfaulty, hother]
  | price => cases mark <;> simp [result, genuine, Mark.falsify, hfaulty, hother]

/-- The conditions in the two write functions agree: with each other, and with
the one under which the schedule moves on. -/
theorem RecordKind.write_eq_lines (hprice : feed.priceFeed.exchangeTimestamp = feed.timestamp)
    (time : Int) : kind.write feed conf time =
      kind.lines conf (if feed.Faulty conf mark then some mark else none) feed time := by
  rw [kind.write_eq hprice]
  unfold lines
  by_cases hfaulty : feed.Faulty conf mark
  · rw [if_pos hfaulty, kind.result_of_faulty honly hfaulty]
    by_cases hmem : mark ∈ kind.marks
    · rw [(feed.fault_eq_some_iff kind honly).mpr ⟨hmem, hfaulty⟩, mark.faultLines_eq,
        Option.filter_some_pos (by simpa using hmem)]
    · have hnone : feed.fault conf kind = none :=
        feed.fault_of_none kind (fun other hother hdue => hmem (honly other hdue ▸ hother))
      rw [hnone, kind.falsify_genuine hmem, Option.filter_some_neg (by simpa using hmem)]
      rfl
  · have hnone : ∀ other, ¬ feed.Faulty conf other :=
      fun other hdue => hfaulty (honly other hdue ▸ hdue)
    rw [if_neg hfaulty, kind.result_of_none hnone, feed.fault_of_none kind (fun _ _ => hnone _)]
    rfl

end Only

theorem RecordKind.lines_of_alike {other : Feed} (halike : feed.Alike other)
    (fault : Option Mark) (time : Int) :
    kind.lines conf fault feed time = kind.lines conf fault other time := by
  have hsame : kind.genuine feed time = kind.genuine other time := by
    cases kind with
    | statistics => rw [genuine, genuine, halike.statistics]
    | price => rw [genuine, genuine, halike.price]
  rw [lines, lines, hsame]

theorem RecordKind.lines_of_not_shown (h : ¬ mark.Shown conf) (feed : Feed) (time : Int) :
    kind.lines conf (some mark) feed time = kind.lines conf none feed time := by
  unfold lines
  split_ifs with henabled
  · rw [Option.filter_some_neg (by simpa using fun hmem => h ⟨kind, hmem, henabled⟩)]
    rfl
  · rfl

theorem RecordKind.mem_lines_none {time : Int} {write : Write}
    (h : write ∈ kind.lines conf none feed time) :
    write = ⟨.own, .record (kind.genuine feed time)⟩ := by
  unfold lines at h
  split_ifs at h
  · exact List.mem_singleton.mp h
  · cases h

theorem RecordKind.mem_lines_marked (hmem : mark ∈ kind.marks) (henabled : kind.Enabled conf)
    (feed : Feed) (time : Int) :
    ⟨.error, .marked mark (mark.falsify (kind.genuine feed time))⟩ ∈
      kind.lines conf (some mark) feed time := by
  unfold lines
  rw [if_pos henabled, Option.filter_some_pos (by simpa using hmem)]
  exact List.mem_cons_self

end Lines

/-- The state of a thread whose feed is in one range only. -/
structure ThreadState.Single (conf : Conf) (mark : Mark) (s : ThreadState) : Prop where
  only : ∀ other, inRange s.feed.feedCodeId (conf.fault other).feedCodeStartId
    (conf.fault other).instrumentAmount ↔ other = mark
  waits : s.QueueWaits

namespace ThreadState.Single

variable {conf : Conf} {mark : Mark} {s : ThreadState} (h : s.Single conf mark)
  (hinterval : 0 < conf.delay.interval)

include h

theorem faulty_only {feed : Feed} (hid : feed.feedCodeId = s.feed.feedCodeId) (other : Mark)
    (hfaulty : feed.Faulty conf other) : other = mark := by
  have hrange := hfaulty.1
  rw [hid] at hrange
  exact (h.only other).mp hrange

include hinterval

theorem pass (randomLogSet : List String) (nowTime : Int) (inputs : PassInputs) :
    (s.pass conf randomLogSet nowTime inputs).Single conf mark := by
  refine ⟨?_, h.waits.pass hinterval randomLogSet nowTime inputs⟩
  by_cases hsends : s.Sends nowTime
  · rw [(pass_feed s conf randomLogSet nowTime inputs hsends).2]
    exact h.only
  · rw [pass_of_not_sends s conf randomLogSet nowTime inputs hsends]
    exact h.only

/-- A feed that is resent has no fault any more. -/
theorem resent_lines (inputs : PassInputs) :
    (s.counted conf inputs).resentLines conf inputs = [] ∨
      ∃ delayed ∈ (s.counted conf inputs).delayQueue,
        (s.counted conf inputs).resentLines conf inputs = ⟨.error, .resend delayed.timestamp⟩ ::
          (RecordKind.statistics.lines conf none delayed inputs.resendStatisticsTime ++
            RecordKind.price.lines conf none delayed inputs.resendPriceTime) := by
  have hwaits := h.waits.counted hinterval inputs
  unfold resentLines
  split_ifs with hnow
  · cases hqueue : (s.counted conf inputs).delayQueue with
    | nil => exact Or.inl rfl
    | cons delayed rest =>
        have hdelayed := hwaits delayed (hqueue ▸ List.mem_cons_self)
        have hmark : Mark.delay = mark := by
          have hrange := hnow.1
          rw [counted_feed] at hrange
          exact (h.only .delay).mp hrange
        have hlines : ∀ (kind : RecordKind) time,
            kind.write delayed conf time = kind.lines conf none delayed time := by
          intro kind time
          have hwrite := kind.write_eq_lines (h.faulty_only hdelayed.id) hdelayed.price time
          rwa [if_neg (hmark ▸ hdelayed.not_faulty conf)] at hwrite
        refine Or.inr ⟨delayed, List.mem_cons_self, ?_⟩
        rw [← hlines, ← hlines]
        exact List.append_nil _
  · exact Or.inl rfl

/-- What one pass writes, given the feeds sent before. -/
theorem shows {before : List Feed} (hrecalls : s.Recalls conf before)
    (randomLogSet : List String) {nowTime : Int} (inputs : PassInputs) (hsends : s.Sends nowTime) :
    (s.passLog conf randomLogSet nowTime inputs).Shows conf (before ++ [s.next conf inputs])
      (if (s.next conf inputs).Faulty conf mark then some mark else none)
      (s.next conf inputs) := by
  obtain ⟨hsent, hwrites⟩ := passLog_of_sends s conf randomLogSet nowTime inputs hsends
  have hown : ∀ (kind : RecordKind) time, kind.write (s.next conf inputs) conf time = _ :=
    fun kind time => kind.write_eq_lines (h.faulty_only (s.next_feedCodeId conf inputs))
      (s.next_priceTimestamp conf inputs) time
  refine ⟨hsent, inputs.statisticsTime, inputs.priceTime,
    (s.counted conf inputs).resentLines conf inputs, ?_, ?_⟩
  · rw [hwrites, ← hown, ← hown]
    rfl
  · refine (h.resent_lines hinterval inputs).imp_right ?_
    rintro ⟨delayed, hdelayed, hlines⟩
    obtain ⟨feed, hfeed, hfaulty, halike⟩ := hrecalls.counted inputs delayed hdelayed
    refine ⟨feed, hfeed, hfaulty, inputs.resendStatisticsTime, inputs.resendPriceTime, ?_⟩
    rw [hlines, RecordKind.lines_of_alike _ halike, RecordKind.lines_of_alike _ halike,
      Feed.timestamp, halike.statistics]
    rfl

end ThreadState.Single

theorem PassLog.Shows.later {conf : Conf} {before : List Feed} {fault : Option Mark} {feed : Feed}
    {entry : PassLog} (h : entry.Shows conf before fault feed) (later : List Feed) :
    entry.Shows conf (before ++ later) fault feed := by
  obtain ⟨hsent, time, time', resent, hwrites, hresent⟩ := h
  refine ⟨hsent, time, time', resent, hwrites, hresent.imp_right ?_⟩
  rintro ⟨delayed, hdelayed, hlines⟩
  exact ⟨delayed, List.mem_append_left _ hdelayed, hlines⟩

section Shows

variable {conf : Conf} {before : List Feed} {mark : Mark} {feed : Feed} {entry : PassLog}

/-- A pass that shows a fault notes it. -/
theorem PassLog.Shows.marked (h : entry.Shows conf before (some mark) feed)
    (hshown : mark.Shown conf) : ∃ result, ⟨.error, .marked mark result⟩ ∈ entry.writes := by
  obtain ⟨_, time, time', resent, hwrites, _⟩ := h
  obtain ⟨kind, hmem, henabled⟩ := hshown
  rw [hwrites]
  cases kind with
  | statistics =>
      exact ⟨_, List.mem_append_left _ (List.mem_append_left _
        (RecordKind.mem_lines_marked _ hmem henabled feed time))⟩
  | price =>
      exact ⟨_, List.mem_append_left _ (List.mem_append_right _
        (RecordKind.mem_lines_marked _ hmem henabled feed time'))⟩

/-- A pass that shows no fault notes none. -/
theorem PassLog.Shows.not_marked (h : entry.Shows conf before none feed) (result : Record) :
    ⟨.error, .marked mark result⟩ ∉ entry.writes := by
  have hlines : ∀ (feed : Feed) time time', ⟨.error, .marked mark result⟩ ∉
      RecordKind.statistics.lines conf none feed time ++
        RecordKind.price.lines conf none feed time' := by
    intro feed time time' hline
    rcases List.mem_append.mp hline with hline | hline
    · cases RecordKind.mem_lines_none _ hline
    · cases RecordKind.mem_lines_none _ hline
  obtain ⟨_, time, time', resent, hwrites, hresent⟩ := h
  rw [hwrites]
  intro hline
  rcases List.mem_append.mp hline with hline | hline
  · exact hlines _ _ _ hline
  · rcases hresent with rfl | ⟨delayed, _, _, time, time', rfl⟩
    · cases hline
    · rcases List.mem_cons.mp hline with hline | hline
      · cases hline
      · exact hlines _ _ _ hline

end Shows

section Thread

variable {conf : Conf} (words : String → List Sample) {i : Nat} (inputs : ThreadInputs)
  {mark : Mark} (hinterval : 0 < conf.delay.interval) (honly : OnlyIn conf i mark)

include hinterval honly

theorem threadLog_shows : ∀ entry ∈ threadLog conf words i inputs, ∀ feed,
    entry.sent = some feed → entry.Shows conf (sentFeeds (threadLog conf words i inputs))
      (if feed.Faulty conf mark then some mark else none) feed := by
  refine ThreadState.forall_mem_loopLog_sent (P := fun _ => True)
    (I := fun before s => s.Single conf mark ∧ s.Recalls conf before)
    (Q := fun before entry => ∀ feed, entry.sent = some feed → entry.Shows conf before
      (if feed.Faulty conf mark then some mark else none) feed) ?_ ?_ (fun _ _ => trivial) _ []
    ⟨⟨honly, fun _ hdelayed => nomatch hdelayed⟩, fun _ hdelayed => nomatch hdelayed⟩
  · rintro before s nowTime inputs - ⟨hsingle, hrecalls⟩
    refine ⟨⟨hsingle.pass hinterval _ nowTime inputs, hrecalls.pass _ nowTime inputs⟩, ?_⟩
    intro feed hfeed
    by_cases hsends : s.Sends nowTime
    · have hsent := (s.passLog_of_sends conf (generateRandomData words) nowTime inputs hsends).1
      cases hsent.symm.trans hfeed
      rw [hsent]
      exact hsingle.shows hinterval hrecalls _ inputs hsends
    · cases (s.passLog_of_not_sends conf _ nowTime inputs hsends).1.symm.trans hfeed
  · intro before later entry h feed hfeed
    exact (h feed hfeed).later later

theorem mem_injectedTicks (t : Int) :
    t ∈ injectedTicks conf (threadLog conf words i inputs) mark ↔
      mark.Shown conf ∧ t ∈ dueTicks conf (threadLog conf words i inputs) mark := by
  have hshows := threadLog_shows words inputs hinterval honly
  constructor
  · rintro ⟨hshown, entry, hentry, feed, hfault, rfl⟩
    refine ⟨hshown, feed, mem_sentFeeds.mpr ⟨entry, hentry, hfault.sent⟩, ?_, rfl⟩
    by_contra hfree
    have hnone := hshows entry hentry feed hfault.sent
    rw [if_neg hfree] at hnone
    obtain ⟨result, hmarked⟩ := hfault.marked hshown
    exact hnone.not_marked result hmarked
  · rintro ⟨hshown, feed, hfeed, hfaulty, rfl⟩
    obtain ⟨entry, hentry, hsent⟩ := mem_sentFeeds.mp hfeed
    have hfault := hshows entry hentry feed hsent
    rw [if_pos hfaulty] at hfault
    exact ⟨hshown, entry, hentry, feed, hfault, rfl⟩

/-- Where the fault is not injected, the logs show the records as they are. -/
theorem shows_none_of_not_injected {entry : PassLog}
    (hentry : entry ∈ threadLog conf words i inputs) {feed : Feed} (hsent : entry.sent = some feed)
    (hnot : feed.timestamp ∉ injectedTicks conf (threadLog conf words i inputs) mark) :
    entry.Shows conf (sentFeeds (threadLog conf words i inputs)) none feed := by
  have hshows := threadLog_shows words inputs hinterval honly entry hentry feed hsent
  by_cases hfaulty : feed.Faulty conf mark
  · rw [if_pos hfaulty] at hshows
    have hhidden : ¬ mark.Shown conf :=
      fun hshown => hnot ⟨hshown, entry, hentry, feed, hshows, rfl⟩
    obtain ⟨_, time, time', resent, hwrites, hresent⟩ := hshows
    refine ⟨hsent, time, time', resent, ?_, hresent⟩
    rw [hwrites, RecordKind.lines_of_not_shown _ hhidden, RecordKind.lines_of_not_shown _ hhidden]
  · rwa [if_neg hfaulty] at hshows

end Thread

/-- For an instrument in the range of one fault, and a run that covers the
fault's schedule: the fault is injected exactly on the scheduled ticks if and
only if some line that it concerns is written at all and, in the case of
exchanged prices, the interval is that of the turnover errors. On all other
ticks the logs show no fault, and passes that send nothing write noise at
most. -/
theorem faults_on_schedule_iff {conf : Conf} (words : String → List Sample) {i : Nat}
    {inputs : ThreadInputs} {mark : Mark}
    (hpos : ∀ other, 0 < (conf.fault other).interval ∧ 0 < (conf.fault other).amount)
    (honly : OnlyIn conf i mark) (hcovers : Covers conf inputs mark) :
    (injectedTicks conf (threadLog conf words i inputs) mark =
        scheduledTicks conf inputs.nowTime mark ↔
      mark.Shown conf ∧
        (mark = .errorBidAsk → conf.errorTurnover.interval = conf.errorBidAsk.interval)) ∧
    ∀ entry ∈ threadLog conf words i inputs,
      (∀ feed, entry.sent = some feed →
        feed.timestamp ∉ injectedTicks conf (threadLog conf words i inputs) mark →
          entry.Shows conf (sentFeeds (threadLog conf words i inputs)) none feed) ∧
      (entry.sent = none → ∀ write ∈ entry.writes,
        ∃ timestamp message, write = ⟨.own, .noise timestamp message⟩) := by
  have hrange := (honly mark).mpr rfl
  have hmem := mem_injectedTicks words inputs (hpos .delay).1 honly
  have hdue := dueTicks_eq_iff words (fun other => (hpos other).1) (hpos mark).2 hrange hcovers
  have hown : conf.firstInterval mark = (conf.fault mark).interval ↔
      (mark = .errorBidAsk → conf.errorTurnover.interval = conf.errorBidAsk.interval) := by
    cases mark with
    | errorBidAsk => exact ⟨fun heq _ => heq, fun heq => heq rfl⟩
    | _ => exact iff_of_true rfl (fun hmark => by cases hmark)
  have hsame : mark.Shown conf → injectedTicks conf (threadLog conf words i inputs) mark =
      dueTicks conf (threadLog conf words i inputs) mark := by
    intro hshown
    ext t
    rw [hmem]
    exact ⟨fun h => h.2, fun h => ⟨hshown, h⟩⟩
  refine ⟨?_, fun entry hentry => ⟨fun feed => ?_, ?_⟩⟩
  · rw [← hown, ← hdue]
    constructor
    · intro hsets
      -- the first scheduled tick shows the fault, so there are lines to show it
      have hfirst : baseTime inputs.nowTime + 1 * conf.period mark ∈
          scheduledTicks conf inputs.nowTime mark := ⟨1, le_rfl, (hpos mark).2, rfl⟩
      rw [← hsets] at hfirst
      have hshown := ((hmem _).mp hfirst).1
      exact ⟨hshown, (hsame hshown).symm.trans hsets⟩
    · rintro ⟨hshown, hsets⟩
      exact (hsame hshown).trans hsets
  · exact shows_none_of_not_injected words inputs (hpos .delay).1 honly hentry
  · exact threadLog_idle words inputs entry hentry

/-- One instrument, whose prices are to be exchanged once. -/
def bidAskConf (turnoverInterval bidAskInterval : Int) : Conf where
  instrumentAmount := 1
  messageType := 3
  enableNoise := false
  feedCodeStartId := 1000
  timeLength := 5
  drop := ⟨1001, 1, 1, 1⟩
  delay := ⟨1002, 1, 1, 1⟩
  delayTimeLength := 1
  errorTurnover := ⟨1003, 1, 1, turnoverInterval⟩
  errorBidAsk := ⟨1000, 1, 1, bidAskInterval⟩
  errorPrice := ⟨1005, 1, 1, 1⟩
  errorVolume := ⟨1006, 1, 1, 1⟩

/-- A pass at whose end the clock shows the given time. -/
def passUntil (nowTime : Int) : PassInputs where
  statistics := ⟨0, 0, 0, 0, 0⟩
  statisticsTime := 0
  price := ⟨0, 0, 0, 0, 0, 0, 0⟩
  priceTime := 0
  resendStatisticsTime := 0
  resendPriceTime := 0
  noiseTime := 0
  noiseIndex := 0
  nowTime := nowTime

/-- A thread that starts at time zero and sees the clock at the given times. -/
def clockInputs (clocks : List Int) : ThreadInputs where
  init := ⟨0, 0, 0, 0, 0, 0, 0⟩
  nowTime := 0
  passes := clocks.map passUntil

theorem bidAskConf_onlyIn (turnoverInterval bidAskInterval : Int) :
    OnlyIn (bidAskConf turnoverInterval bidAskInterval) 0 .errorBidAsk := by
  intro other
  cases other <;> simp [Conf.fault, bidAskConf, inRange]

theorem bidAskConf_pos {turnoverInterval bidAskInterval : Int} (hturnover : 0 < turnoverInterval)
    (hbidAsk : 0 < bidAskInterval) (other : Mark) :
    0 < ((bidAskConf turnoverInterval bidAskInterval).fault other).interval ∧
      0 < ((bidAskConf turnoverInterval bidAskInterval).fault other).amount := by
  cases other with
  | errorTurnover => exact ⟨hturnover, Int.one_pos⟩
  | errorBidAsk => exact ⟨hbidAsk, Int.one_pos⟩
  | _ => exact ⟨Int.one_pos, Int.one_pos⟩

/-- Two seconds' worth of ticks. -/
theorem bidAskConf_covers (turnoverInterval : Int) :
    Covers (bidAskConf turnoverInterval 2)
      (clockInputs [600, 1100, 1600, 2100, 2200]) .errorBidAsk := by
  have hticks : threadTicks (bidAskConf turnoverInterval 2)
      (clockInputs [600, 1100, 1600, 2100, 2200]) =
        [500000000, 1000000000, 1500000000, 2000000000] := rfl
  intro t hlow hhigh hdvd
  change t ≤ 0 + 1 * (2 * 1000000000) at hhigh
  change 0 < t at hlow
  rw [hticks]
  simp only [List.mem_cons, List.not_mem_nil, or_false]
  omega

/-- With equal intervals the one scheduled tick is the one injected. -/
theorem faults_on_schedule_equal_intervals :
    injectedTicks (bidAskConf 2 2) (threadLog (bidAskConf 2 2) (fun _ => []) 0
        (clockInputs [600, 1100, 1600, 2100, 2200])) .errorBidAsk =
      scheduledTicks (bidAskConf 2 2) 0 .errorBidAsk :=
  (faults_on_schedule_iff (fun _ => []) (bidAskConf_pos (by decide) (by decide))
    (bidAskConf_onlyIn 2 2) (bidAskConf_covers 2)).1.mpr
    ⟨⟨.price, by decide, by decide⟩, fun _ => rfl⟩

/-- Prices are to be exchanged after two seconds. They are exchanged after one,
which is the interval of the turnover errors. -/
theorem bid_ask_fault_off_schedule :
    (∀ other, 0 < ((bidAskConf 1 2).fault other).interval ∧
      0 < ((bidAskConf 1 2).fault other).amount) ∧
    OnlyIn (bidAskConf 1 2) 0 .errorBidAsk ∧
    Covers (bidAskConf 1 2) (clockInputs [600, 1100, 1600, 2100, 2200]) .errorBidAsk ∧
    1000000000 ∈ injectedTicks (bidAskConf 1 2) (threadLog (bidAskConf 1 2) (fun _ => []) 0
      (clockInputs [600, 1100, 1600, 2100, 2200])) .errorBidAsk ∧
    1000000000 ∉ scheduledTicks (bidAskConf 1 2) 0 .errorBidAsk := by
  refine ⟨bidAskConf_pos (by decide) (by decide), bidAskConf_onlyIn 1 2, bidAskConf_covers 1,
    ?_, ?_⟩
  · have hfound : ∃ feed ∈ sentFeeds (threadLog (bidAskConf 1 2) (fun _ => []) 0
        (clockInputs [600, 1100, 1600, 2100, 2200])),
        feed.Faulty (bidAskConf 1 2) .errorBidAsk ∧ feed.timestamp = 1000000000 := by
      decide +kernel
    exact (mem_injectedTicks _ _ (by decide) (bidAskConf_onlyIn 1 2) _).mpr
      ⟨⟨.price, by decide, by decide⟩, hfound⟩
  · rintro ⟨k, _, hk, ht⟩
    change k ≤ 1 at hk
    change 1000000000 = 0 + k * (2 * 1000000000) at ht
    omega

end OLog.Generator
