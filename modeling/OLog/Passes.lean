import OLog.Generator
import OLog.Lib.Periodic

/-!
The runs of the script's threads, pass by pass: which feed a pass sends, what
it does to the schedules and to the queue of delayed feeds, and which lines it
writes.
-/

namespace OLog.Generator

open Lib

def Feed.timestamp (feed : Feed) : Int := feed.statisticsFeed.exchangeTimestamp

/-- The schedule whose events carry a mark, and its configuration. -/
def Feed.schedule (feed : Feed) : Mark → Schedule
  | .drop => feed.drop
  | .delay => feed.delay
  | .errorTurnover => feed.errorTurnover
  | .errorBidAsk => feed.errorBidAsk
  | .errorPrice => feed.errorPrice
  | .errorVolume => feed.errorVolume

def Conf.fault (conf : Conf) : Mark → FaultConf
  | .drop => conf.drop
  | .delay => conf.delay
  | .errorTurnover => conf.errorTurnover
  | .errorBidAsk => conf.errorBidAsk
  | .errorPrice => conf.errorPrice
  | .errorVolume => conf.errorVolume

/-- The condition under which the lines of a feed get the fault. -/
def Feed.Faulty (conf : Conf) (feed : Feed) (mark : Mark) : Prop :=
  due (conf.fault mark) (feed.schedule mark) feed.feedCodeId feed.timestamp

instance (conf : Conf) (feed : Feed) (mark : Mark) : Decidable (feed.Faulty conf mark) := by
  unfold Feed.Faulty
  infer_instance

/-- Whether a pass generates the next tick. -/
def ThreadState.Sends (s : ThreadState) (nowTime : Int) : Prop :=
  nowTime / 100 > s.feed.timestamp / 100000000 + 5

instance (s : ThreadState) (nowTime : Int) : Decidable (s.Sends nowTime) := by
  unfold ThreadState.Sends
  infer_instance

/-- What a pass has done: the feed that it sent, as it was when its lines were
written, and all lines that it wrote. -/
structure PassLog where
  sent : Option Feed
  writes : List Write

namespace ThreadState

def passLog (s : ThreadState) (conf : Conf) (randomLogSet : List String) (nowTime : Int)
    (inputs : PassInputs) : PassLog :=
  ⟨if s.Sends nowTime then some (s.emit conf inputs).feed else none,
    (s.pass conf randomLogSet nowTime inputs).writes.drop s.writes.length⟩

def loopLog (conf : Conf) (randomLogSet : List String) (endTime : Int) :
    List PassInputs → Int → ThreadState → List PassLog
  | [], _, _ => []
  | inputs :: rest, nowTime, s =>
      if nowTime < endTime then
        s.passLog conf randomLogSet nowTime inputs ::
          loopLog conf randomLogSet endTime rest inputs.nowTime
            (s.pass conf randomLogSet nowTime inputs)
      else []

end ThreadState

/-- The state in which the thread of instrument `i` enters its loop. -/
def threadStart (conf : Conf) (i : Nat) (inputs : ThreadInputs) : ThreadState :=
  ⟨startSchedules (generateInitFeed i conf.feedCodeStartId inputs.init) conf inputs.nowTime,
    [], []⟩

def threadLog (conf : Conf) (words : String → List Sample) (i : Nat) (inputs : ThreadInputs) :
    List PassLog :=
  ThreadState.loopLog conf (generateRandomData words)
    (inputs.nowTime + conf.timeLength * 1000) inputs.passes inputs.nowTime
    (threadStart conf i inputs)

/-- The ticks that are generated after tick `t`. They depend on the readings of
the clock alone. -/
def clockTicks (endTime : Int) : List Int → Int → Int → List Int
  | [], _, _ => []
  | clock :: rest, nowTime, t =>
      if nowTime < endTime then
        if nowTime / 100 > t / 100000000 + 5 then
          (t + 500000000) :: clockTicks endTime rest clock (t + 500000000)
        else clockTicks endTime rest clock t
      else []

/-- The ticks that a thread generates. -/
def threadTicks (conf : Conf) (inputs : ThreadInputs) : List Int :=
  clockTicks (inputs.nowTime + conf.timeLength * 1000)
    (inputs.passes.map PassInputs.nowTime) inputs.nowTime
    (inputs.init.timestamp / 500 * 500000000)

theorem clockTicks_eq (endTime : Int) (clocks : List Int) (nowTime t : Int) :
    ∃ n, clockTicks endTime clocks nowTime t = pointsFrom 500000000 t n := by
  induction clocks generalizing nowTime t with
  | nil => exact ⟨0, rfl⟩
  | cons clock rest ih =>
      simp only [clockTicks]
      split_ifs with htime hsends
      · obtain ⟨n, hn⟩ := ih clock (t + 500000000)
        exact ⟨n + 1, by rw [hn, pointsFrom]⟩
      · exact ih clock t
      · exact ⟨0, rfl⟩

namespace ThreadState

variable (s : ThreadState) (conf : Conf) (randomLogSet : List String) (nowTime : Int)
  (inputs : PassInputs)

/-- The feed that the pass sends, if it sends one. -/
def next : Feed := (s.emit conf inputs).feed

theorem next_timestamp : (s.next conf inputs).timestamp = s.feed.timestamp + 500000000 := rfl

theorem next_priceTimestamp :
    (s.next conf inputs).priceFeed.exchangeTimestamp = (s.next conf inputs).timestamp := rfl

theorem next_schedule (mark : Mark) :
    (s.next conf inputs).schedule mark = s.feed.schedule mark := by
  cases mark <;> rfl

theorem next_feedCodeId : (s.next conf inputs).feedCodeId = s.feed.feedCodeId := rfl

/-- The time of resending has come. -/
def ResendsNow : Prop :=
  inRange s.feed.feedCodeId conf.delay.feedCodeStartId conf.delay.instrumentAmount ∧
    s.feed.timestamp / 100000000 = s.feed.nextResendTimestamp

instance : Decidable (s.ResendsNow conf) := by
  unfold ResendsNow
  infer_instance

/-- What resending writes. -/
def resentLines : List Write :=
  if s.ResendsNow conf then
    (s.delayQueue.take 1).flatMap (fun delayed =>
      ⟨.error, .resend delayed.timestamp⟩ ::
        (writeStatisticsFeed delayed conf inputs.resendStatisticsTime ++
          writePriceFeed delayed conf inputs.resendPriceTime))
  else []

/-- Resending, without the distinction whether there is something to resend. -/
theorem resend_eq : s.resend conf inputs =
    {s with
      feed := {s.feed with
        nextResendTimestamp :=
          if s.ResendsNow conf ∧ 1 < s.delayQueue.length then
            s.feed.nextResendTimestamp + conf.delay.interval * 10
          else s.feed.nextResendTimestamp}
      delayQueue := if s.ResendsNow conf then s.delayQueue.tail else s.delayQueue
      writes := s.writes ++ s.resentLines conf inputs} := by
  have hnow : (inRange s.feed.feedCodeId conf.delay.feedCodeStartId conf.delay.instrumentAmount ∧
      s.feed.statisticsFeed.exchangeTimestamp / 100000000 = s.feed.nextResendTimestamp) ↔
        s.ResendsNow conf := Iff.rfl
  simp only [resend, resentLines, hnow]
  by_cases hresend : s.ResendsNow conf
  · simp only [hresend, if_true, true_and]
    cases hqueue : s.delayQueue with
    | nil =>
        have hsame : ({s with delayQueue := []} : ThreadState) = s := by rw [← hqueue]
        simpa using hsame.symm
    | cons delayed rest =>
        cases rest with
        | nil => simp [Feed.timestamp]
        | cons other rest => simp [Feed.timestamp]
  · simp [hresend]

theorem countDelay_feed : (s.countDelay conf).feed = {s.feed with
    delay := s.feed.delay.advance conf.delay s.feed.feedCodeId s.feed.timestamp} := by
  unfold countDelay Schedule.advance Feed.timestamp
  by_cases hdue :
      due conf.delay s.feed.delay s.feed.feedCodeId s.feed.statisticsFeed.exchangeTimestamp
  · rw [if_pos hdue, if_pos hdue]
  · rw [if_neg hdue, if_neg hdue]

/-- The state of a sending pass when it comes to resending: what is due for the
delay has been put aside. -/
def counted : ThreadState := ((s.emit conf inputs).countDrop conf).countDelay conf

theorem pass_of_sends (h : s.Sends nowTime) :
    s.pass conf randomLogSet nowTime inputs =
      ((s.counted conf inputs).resend conf inputs).countErrors conf := by
  unfold Sends at h
  simp only [pass, counted, Feed.timestamp] at h ⊢
  rw [if_pos h]

theorem pass_of_not_sends (h : ¬ s.Sends nowTime) :
    s.pass conf randomLogSet nowTime inputs =
      {s with writes := s.writes ++
        if conf.enableNoise then getRandomData randomLogSet inputs.noiseTime inputs.noiseIndex
        else []} := by
  unfold Sends at h
  simp only [pass, Feed.timestamp] at h ⊢
  rw [if_neg h]
  split_ifs
  · rfl
  · rw [List.append_nil]

/-- The feed that a sending pass leaves behind, but for the time of resending. -/
theorem counted_feed :
    (s.counted conf inputs).feed = {s.next conf inputs with
      drop := (s.next conf inputs).drop.advance conf.drop (s.next conf inputs).feedCodeId
        (s.next conf inputs).timestamp
      delay := (s.next conf inputs).delay.advance conf.delay (s.next conf inputs).feedCodeId
        (s.next conf inputs).timestamp} :=
  countDelay_feed _ conf

theorem counted_writes : (s.counted conf inputs).writes = s.writes ++
    (writeStatisticsFeed (s.next conf inputs) conf inputs.statisticsTime ++
      writePriceFeed (s.next conf inputs) conf inputs.priceTime) := by
  unfold counted countDelay
  split_ifs <;> rfl

theorem counted_queue : (s.counted conf inputs).delayQueue = s.delayQueue ++
    if (s.next conf inputs).Faulty conf .delay then [(s.counted conf inputs).feed] else [] := by
  have hdue : due conf.delay ((s.emit conf inputs).countDrop conf).feed.delay
      ((s.emit conf inputs).countDrop conf).feed.feedCodeId
      ((s.emit conf inputs).countDrop conf).feed.statisticsFeed.exchangeTimestamp ↔
      (s.next conf inputs).Faulty conf .delay := Iff.rfl
  unfold counted countDelay
  simp only [hdue]
  split_ifs
  · rfl
  · rw [List.append_nil]
    rfl

/-- Each schedule moves on if its fault was injected. -/
theorem pass_schedule (h : s.Sends nowTime) (mark : Mark) :
    (s.pass conf randomLogSet nowTime inputs).feed.schedule mark =
      (s.feed.schedule mark).advance (conf.fault mark) s.feed.feedCodeId
        (s.feed.timestamp + 500000000) := by
  rw [pass_of_sends s conf randomLogSet nowTime inputs h, resend_eq]
  have hcounted := s.counted_feed conf inputs
  cases mark <;> simp only [countErrors, Feed.schedule, hcounted] <;> rfl

theorem pass_nextResendTimestamp (h : s.Sends nowTime) :
    (s.pass conf randomLogSet nowTime inputs).feed.nextResendTimestamp =
      if (s.counted conf inputs).ResendsNow conf ∧
          1 < (s.counted conf inputs).delayQueue.length then
        s.feed.nextResendTimestamp + conf.delay.interval * 10
      else s.feed.nextResendTimestamp := by
  rw [pass_of_sends s conf randomLogSet nowTime inputs h, resend_eq]
  simp only [countErrors, counted_feed]
  rfl

theorem pass_delayQueue (h : s.Sends nowTime) :
    (s.pass conf randomLogSet nowTime inputs).delayQueue =
      if (s.counted conf inputs).ResendsNow conf then (s.counted conf inputs).delayQueue.tail
      else (s.counted conf inputs).delayQueue := by
  rw [pass_of_sends s conf randomLogSet nowTime inputs h, resend_eq]
  rfl

theorem pass_feed (h : s.Sends nowTime) :
    (s.pass conf randomLogSet nowTime inputs).feed.timestamp = s.feed.timestamp + 500000000 ∧
      (s.pass conf randomLogSet nowTime inputs).feed.feedCodeId = s.feed.feedCodeId := by
  rw [pass_of_sends s conf randomLogSet nowTime inputs h, resend_eq]
  simp only [countErrors, Feed.timestamp, s.counted_feed conf inputs]
  exact ⟨rfl, rfl⟩

/-- A sending pass writes the lines of its feed, and then those of a feed that
is resent. -/
theorem pass_writes_of_sends (h : s.Sends nowTime) :
    (s.pass conf randomLogSet nowTime inputs).writes = s.writes ++
      ((writeStatisticsFeed (s.next conf inputs) conf inputs.statisticsTime ++
        writePriceFeed (s.next conf inputs) conf inputs.priceTime) ++
          (s.counted conf inputs).resentLines conf inputs) := by
  rw [pass_of_sends s conf randomLogSet nowTime inputs h]
  change ((s.counted conf inputs).resend conf inputs).writes = _
  rw [resend_eq, counted_writes, List.append_assoc]

theorem pass_writes : (s.pass conf randomLogSet nowTime inputs).writes =
    s.writes ++ (s.passLog conf randomLogSet nowTime inputs).writes := by
  obtain ⟨written, hwritten⟩ : ∃ written,
      (s.pass conf randomLogSet nowTime inputs).writes = s.writes ++ written := by
    by_cases hsends : s.Sends nowTime
    · exact ⟨_, pass_writes_of_sends s conf randomLogSet nowTime inputs hsends⟩
    · rw [pass_of_not_sends s conf randomLogSet nowTime inputs hsends]
      exact ⟨_, rfl⟩
  rw [passLog, hwritten, List.drop_left]

theorem passLog_of_sends (h : s.Sends nowTime) :
    (s.passLog conf randomLogSet nowTime inputs).sent = some (s.next conf inputs) ∧
      (s.passLog conf randomLogSet nowTime inputs).writes =
        (writeStatisticsFeed (s.next conf inputs) conf inputs.statisticsTime ++
          writePriceFeed (s.next conf inputs) conf inputs.priceTime) ++
            (s.counted conf inputs).resentLines conf inputs := by
  have hpass := pass_writes_of_sends s conf randomLogSet nowTime inputs h
  rw [pass_writes] at hpass
  exact ⟨if_pos h, List.append_cancel_left hpass⟩

/-- A pass that sends nothing writes noise at most. -/
theorem passLog_of_not_sends (h : ¬ s.Sends nowTime) :
    (s.passLog conf randomLogSet nowTime inputs).sent = none ∧
      ∀ write ∈ (s.passLog conf randomLogSet nowTime inputs).writes,
        ∃ timestamp message, write = ⟨.own, .noise timestamp message⟩ := by
  have hpass := pass_writes s conf randomLogSet nowTime inputs
  rw [pass_of_not_sends s conf randomLogSet nowTime inputs h] at hpass
  refine ⟨if_neg h, ?_⟩
  rw [← List.append_cancel_left hpass]
  intro write hwrite
  split_ifs at hwrite
  · obtain ⟨message, _, rfl⟩ := List.mem_map.mp hwrite
    exact ⟨_, _, rfl⟩
  · cases hwrite

/-- The logs of the passes make up what the loop writes. -/
theorem loop_writes (endTime : Int) (passes : List PassInputs) (nowTime : Int) (s : ThreadState) :
    (loop conf randomLogSet endTime passes nowTime s).writes =
      s.writes ++ (loopLog conf randomLogSet endTime passes nowTime s).flatMap PassLog.writes := by
  induction passes generalizing nowTime s with
  | nil => simp [loop, loopLog]
  | cons inputs rest ih =>
      simp only [loop, loopLog]
      split_ifs with htime
      · rw [ih, pass_writes, List.flatMap_cons, List.append_assoc]
      · simp

end ThreadState

theorem thread_writes (conf : Conf) (words : String → List Sample) (i : Nat)
    (inputs : ThreadInputs) : (thread conf words i inputs).writes =
      (threadLog conf words i inputs).flatMap PassLog.writes :=
  ThreadState.loop_writes conf _ _ _ _ _

/-- The feeds that a run has sent, as they were when they were written. -/
def sentFeeds (log : List PassLog) : List Feed := log.filterMap PassLog.sent

theorem mem_sentFeeds {log : List PassLog} {feed : Feed} :
    feed ∈ sentFeeds log ↔ ∃ p ∈ log, p.sent = some feed := List.mem_filterMap

theorem sentFeeds_cons (entry : PassLog) (log : List PassLog) :
    sentFeeds (entry :: log) = entry.sent.toList ++ sentFeeds log := by
  unfold sentFeeds
  cases hsent : entry.sent with
  | none => rw [List.filterMap_cons_none hsent, Option.toList_none, List.nil_append]
  | some feed => rw [List.filterMap_cons_some hsent, Option.toList_some, List.singleton_append]

/-- The rule for runs: what every pass preserves, given the feeds that have been
sent so far, and what every pass ensures of its log. -/
theorem ThreadState.forall_mem_loopLog_sent {conf : Conf} {randomLogSet : List String}
    {endTime : Int} {P : PassInputs → Prop} {I : List Feed → ThreadState → Prop}
    {Q : List Feed → PassLog → Prop}
    (hpass : ∀ before s nowTime inputs, P inputs → I before s →
      I (before ++ (s.passLog conf randomLogSet nowTime inputs).sent.toList)
          (s.pass conf randomLogSet nowTime inputs) ∧
        Q (before ++ (s.passLog conf randomLogSet nowTime inputs).sent.toList)
          (s.passLog conf randomLogSet nowTime inputs))
    (hlater : ∀ before later entry, Q before entry → Q (before ++ later) entry)
    {passes : List PassInputs} (hpasses : ∀ p ∈ passes, P p) (nowTime : Int)
    (before : List Feed) {s : ThreadState} (h : I before s) :
    ∀ entry ∈ loopLog conf randomLogSet endTime passes nowTime s,
      Q (before ++ sentFeeds (loopLog conf randomLogSet endTime passes nowTime s)) entry := by
  induction passes generalizing nowTime before s with
  | nil => exact List.forall_mem_nil _
  | cons inputs rest ih =>
      obtain ⟨hinputs, hrest⟩ := List.forall_mem_cons.mp hpasses
      simp only [loopLog]
      split_ifs with htime
      · obtain ⟨hnext, hentry⟩ := hpass before s nowTime inputs hinputs h
        rw [sentFeeds_cons, ← List.append_assoc]
        exact List.forall_mem_cons.mpr ⟨hlater _ _ _ hentry, ih hrest inputs.nowTime _ hnext⟩
      · exact List.forall_mem_nil _

/-- The same without a look back. -/
theorem ThreadState.forall_mem_loopLog {conf : Conf} {randomLogSet : List String} {endTime : Int}
    {I : ThreadState → Prop} {Q : PassLog → Prop}
    (hpass : ∀ s nowTime inputs, I s →
      I (s.pass conf randomLogSet nowTime inputs) ∧
        Q (s.passLog conf randomLogSet nowTime inputs))
    (passes : List PassInputs) (nowTime : Int) {s : ThreadState} (h : I s) :
    ∀ entry ∈ loopLog conf randomLogSet endTime passes nowTime s, Q entry :=
  forall_mem_loopLog_sent (P := fun _ => True) (I := fun _ s => I s) (Q := fun _ entry => Q entry)
    (fun _ s nowTime inputs _ => hpass s nowTime inputs) (fun _ _ _ => id)
    (fun _ _ => trivial) nowTime [] h

/-- The passes of a run that send nothing. -/
theorem threadLog_idle {conf : Conf} (words : String → List Sample) {i : Nat}
    (inputs : ThreadInputs) :
    ∀ entry ∈ threadLog conf words i inputs, entry.sent = none → ∀ write ∈ entry.writes,
      ∃ timestamp message, write = ⟨.own, .noise timestamp message⟩ := by
  refine ThreadState.forall_mem_loopLog (I := fun _ => True) ?_ _ _ trivial
  intro s nowTime inputs _
  refine ⟨trivial, ?_⟩
  intro hnone
  by_cases hsends : s.Sends nowTime
  · cases (s.passLog_of_sends conf _ nowTime inputs hsends).1.symm.trans hnone
  · exact (s.passLog_of_not_sends conf _ nowTime inputs hsends).2

theorem threadLog_priceTimestamp {conf : Conf} {words : String → List Sample} {i : Nat}
    {inputs : ThreadInputs} : ∀ feed ∈ sentFeeds (threadLog conf words i inputs),
      feed.priceFeed.exchangeTimestamp = feed.timestamp := by
  intro feed hfeed
  obtain ⟨entry, hentry, hsent⟩ := mem_sentFeeds.mp hfeed
  refine ThreadState.forall_mem_loopLog (I := fun _ => True) (Q := fun entry => ∀ feed,
    entry.sent = some feed → feed.priceFeed.exchangeTimestamp = feed.timestamp) ?_ _ _ trivial
    entry hentry feed hsent
  intro s nowTime inputs _
  refine ⟨trivial, ?_⟩
  intro feed hsent
  by_cases hsends : s.Sends nowTime
  · cases (s.passLog_of_sends conf _ nowTime inputs hsends).1.symm.trans hsent
    exact s.next_priceTimestamp conf inputs
  · cases (s.passLog_of_not_sends conf _ nowTime inputs hsends).1.symm.trans hsent

theorem ThreadState.loopLog_ticks (conf : Conf) (randomLogSet : List String) (endTime : Int)
    (passes : List PassInputs) (nowTime : Int) (s : ThreadState) :
    (sentFeeds (loopLog conf randomLogSet endTime passes nowTime s)).map Feed.timestamp =
      clockTicks endTime (passes.map PassInputs.nowTime) nowTime s.feed.timestamp := by
  induction passes generalizing nowTime s with
  | nil => rfl
  | cons inputs rest ih =>
      simp only [loopLog, List.map_cons, clockTicks]
      split_ifs with htime hsends
      · have hsent : s.Sends nowTime := hsends
        have hnext := ih inputs.nowTime (s.pass conf randomLogSet nowTime inputs)
        rw [(pass_feed s conf randomLogSet nowTime inputs hsent).1] at hnext
        unfold sentFeeds at hnext ⊢
        rw [List.filterMap_cons_some (b := s.next conf inputs)
          (by simp [passLog, hsent, ThreadState.next]), List.map_cons, hnext]
        rfl
      · have hidle : ¬ s.Sends nowTime := hsends
        have hnext := ih inputs.nowTime (s.pass conf randomLogSet nowTime inputs)
        rw [pass_of_not_sends s conf randomLogSet nowTime inputs hidle] at hnext
        unfold sentFeeds at hnext ⊢
        rw [List.filterMap_cons_none (by simp [passLog, hidle]),
          pass_of_not_sends s conf randomLogSet nowTime inputs hidle]
        exact hnext
      · rfl

theorem threadLog_ticks (conf : Conf) (words : String → List Sample) (i : Nat)
    (inputs : ThreadInputs) :
    (sentFeeds (threadLog conf words i inputs)).map Feed.timestamp = threadTicks conf inputs :=
  ThreadState.loopLog_ticks conf _ _ _ _ _

inductive RecordKind where
  | statistics
  | price
  deriving DecidableEq, Repr

def RecordKind.tag : RecordKind → Int
  | .statistics => statisticsTag
  | .price => priceTag

/-- The lines of the kind are written at all. -/
def RecordKind.Enabled (conf : Conf) (kind : RecordKind) : Prop :=
  conf.messageType.land kind.tag ≠ 0

instance (conf : Conf) (kind : RecordKind) : Decidable (kind.Enabled conf) := by
  unfold RecordKind.Enabled
  infer_instance

def Record.kind : Record → RecordKind
  | .statistics .. => .statistics
  | .price .. => .price

def Record.exchangeTimestamp : Record → Int
  | .statistics _ sf => sf.exchangeTimestamp
  | .price _ pf => pf.exchangeTimestamp

/-- The faults that a line of the kind can get, in the order in which the
script looks for them. -/
def RecordKind.marks : RecordKind → List Mark
  | .statistics => [.drop, .delay, .errorTurnover]
  | .price => [.drop, .delay, .errorBidAsk, .errorPrice, .errorVolume]

def RecordKind.write (kind : RecordKind) (feed : Feed) (conf : Conf) (time : Int) : List Write :=
  match kind with
  | .statistics => writeStatisticsFeed feed conf time
  | .price => writePriceFeed feed conf time

/-- The lines for a record with the given fault. -/
def faultLines (result : Record) : Option Mark → List Write
  | none => [⟨.own, .record result⟩]
  | some .drop => [⟨.error, .marked .drop result⟩]
  | some .delay => [⟨.error, .marked .delay result⟩]
  | some mark => [⟨.error, .marked mark result⟩, ⟨.own, .record result⟩]

def Feed.fault (conf : Conf) (feed : Feed) (kind : RecordKind) : Option Mark :=
  kind.marks.find? (fun mark => feed.Faulty conf mark)

/-- `resultStr`, as it is computed before the fault is looked for. -/
def RecordKind.result (kind : RecordKind) (feed : Feed) (conf : Conf) (time : Int) : Record :=
  match kind with
  | .statistics =>
      if feed.Faulty conf .errorTurnover then
        .statistics time {feed.statisticsFeed with turnoverValue := 0, turnoverVolume := 0}
      else .statistics time feed.statisticsFeed
  | .price =>
      let pf := feed.priceFeed
      if feed.Faulty conf .errorBidAsk then
        .price time {pf with bidPrice := pf.askPrice, askPrice := pf.bidPrice}
      else if feed.Faulty conf .errorPrice then
        .price time {pf with bidPrice := 0, askPrice := 0 - pf.bidPrice}
      else if feed.Faulty conf .errorVolume then
        .price time {pf with bidVolume := 0 - pf.bidVolume, askVolume := 0 - pf.askVolume}
      else .price time pf

theorem RecordKind.result_kind (kind : RecordKind) (feed : Feed) (conf : Conf) (time : Int) :
    (kind.result feed conf time).kind = kind := by
  cases kind with
  | statistics =>
      unfold result
      split_ifs <;> rfl
  | price =>
      unfold result
      dsimp only
      split_ifs <;> rfl

theorem RecordKind.result_exchangeTimestamp (kind : RecordKind) {feed : Feed}
    (hprice : feed.priceFeed.exchangeTimestamp = feed.timestamp) (conf : Conf) (time : Int) :
    (kind.result feed conf time).exchangeTimestamp = feed.timestamp := by
  cases kind with
  | statistics =>
      unfold result
      split_ifs <;> rfl
  | price =>
      unfold result
      dsimp only
      split_ifs <;> exact hprice

/-- Both write functions look for the first fault that is due. -/
theorem RecordKind.write_eq (kind : RecordKind) {feed : Feed}
    (hprice : feed.priceFeed.exchangeTimestamp = feed.timestamp) (conf : Conf) (time : Int) :
    kind.write feed conf time =
      if kind.Enabled conf then faultLines (kind.result feed conf time) (feed.fault conf kind)
      else [] := by
  cases kind with
  | statistics =>
      have hdue : ∀ mark, due (conf.fault mark) (feed.schedule mark) feed.feedCodeId
          feed.statisticsFeed.exchangeTimestamp ↔ feed.Faulty conf mark := fun _ => Iff.rfl
      have hdrop := hdue .drop
      have hdelay := hdue .delay
      have hturnover := hdue .errorTurnover
      simp only [Conf.fault, Feed.schedule] at hdrop hdelay hturnover
      simp only [write, writeStatisticsFeed, result, Feed.fault, marks, hdrop, hdelay, hturnover,
        Enabled, tag, List.find?_cons, List.find?_nil]
      by_cases h₁ : feed.Faulty conf .drop
      · simp [h₁, faultLines]
      by_cases h₂ : feed.Faulty conf .delay
      · simp [h₁, h₂, faultLines]
      by_cases h₃ : feed.Faulty conf .errorTurnover
      · simp [h₁, h₂, h₃, faultLines]
      · simp [h₁, h₂, h₃, faultLines]
  | price =>
      have hdue : ∀ mark, due (conf.fault mark) (feed.schedule mark) feed.feedCodeId
          feed.priceFeed.exchangeTimestamp ↔ feed.Faulty conf mark := by
        rw [hprice]
        exact fun _ => Iff.rfl
      have hdrop := hdue .drop
      have hdelay := hdue .delay
      have hbidAsk := hdue .errorBidAsk
      have hpriceError := hdue .errorPrice
      have hvolume := hdue .errorVolume
      simp only [Conf.fault, Feed.schedule] at hdrop hdelay hbidAsk hpriceError hvolume
      simp only [write, writePriceFeed, result, Feed.fault, marks, hdrop, hdelay, hbidAsk,
        hpriceError, hvolume, Enabled, tag, List.find?_cons, List.find?_nil]
      by_cases h₁ : feed.Faulty conf .drop
      · simp [h₁, faultLines]
      by_cases h₂ : feed.Faulty conf .delay
      · simp [h₁, h₂, faultLines]
      by_cases h₃ : feed.Faulty conf .errorBidAsk
      · simp [h₁, h₂, h₃, faultLines]
      by_cases h₄ : feed.Faulty conf .errorPrice
      · simp [h₁, h₂, h₃, h₄, faultLines]
      by_cases h₅ : feed.Faulty conf .errorVolume
      · simp [h₁, h₂, h₃, h₄, h₅, faultLines]
      · simp [h₁, h₂, h₃, h₄, h₅, faultLines]

/-- Only one fault can be due. -/
theorem Feed.fault_eq_some_iff {conf : Conf} {feed : Feed} {mark : Mark} (kind : RecordKind)
    (honly : ∀ other, feed.Faulty conf other → other = mark) :
    feed.fault conf kind = some mark ↔ mark ∈ kind.marks ∧ feed.Faulty conf mark := by
  unfold Feed.fault
  constructor
  · intro hfind
    have hfaulty : feed.Faulty conf mark := by simpa using List.find?_some hfind
    exact ⟨List.mem_of_find?_eq_some hfind, hfaulty⟩
  · rintro ⟨hmem, hfaulty⟩
    have hsome : (kind.marks.find? (fun mark => feed.Faulty conf mark)).isSome :=
      List.find?_isSome.mpr ⟨mark, hmem, by simpa using hfaulty⟩
    obtain ⟨other, hother⟩ := Option.isSome_iff_exists.mp hsome
    have hfound : feed.Faulty conf other := by simpa using List.find?_some hother
    rw [hother, honly other hfound]

end OLog.Generator
