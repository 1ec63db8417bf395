import OLog.Injected
import OLog.Lib.DelayLine

/-!
Delayed ticks. A thread whose instrument is in the range of the delay, and of
nothing else, is a delay line: it withholds the lines of the ticks on which the
delay is due, keeps the feeds in a queue, and writes the lines of the first of
them whenever the time of resending comes. That time is moved on only while
feeds are waiting, so a line that is emptied before the next tick is withheld
never resends again.
-/

namespace OLog.Generator

open Lib

/-- The record of the kind that goes into the instrument's log. -/
def ownRecord? (kind : RecordKind) : Write → Option Record
  | ⟨.own, .record result⟩ => if result.kind = kind then some result else none
  | _ => none

theorem ownRecord?_eq_some {kind : RecordKind} {write : Write} {result : Record} :
    ownRecord? kind write = some result ↔
      write = ⟨.own, .record result⟩ ∧ result.kind = kind := by
  constructor
  · intro h
    unfold ownRecord? at h
    split at h
    · split_ifs at h with hkind
      cases h
      exact ⟨rfl, hkind⟩
    · cases h
  · rintro ⟨rfl, hkind⟩
    exact if_pos hkind

/-- The records of tick `t` in the instrument's log, each with the tick of the pass
that writes it. -/
def writtenIn (log : List PassLog) (kind : RecordKind) (t : Int) : List (Option Int × Record) :=
  log.flatMap (fun entry =>
    ((entry.writes.filterMap (ownRecord? kind)).filter
      (fun result => decide (result.exchangeTimestamp = t))).map
        (fun result => (entry.sent.map Feed.timestamp, result)))

/-- How long a tick is to be delayed. -/
def Conf.lag (conf : Conf) : Int := conf.delayTimeLength * 1000000000

/-- The record of a tick that is not withheld is written once, in the pass that
generates it; that of a tick that is withheld once, in the pass that generates
the tick of its resending, if there is such a pass. It is written as the feed
has it. -/
def ResentOnce (conf : Conf) (kind : RecordKind) (log : List PassLog) : Prop :=
  ∀ feed ∈ sentFeeds log,
    (¬ feed.Faulty conf .delay → ∃ time,
      writtenIn log kind feed.timestamp = [(some feed.timestamp, kind.genuine feed time)]) ∧
    (feed.Faulty conf .delay →
      feed.timestamp + conf.lag ∈ (sentFeeds log).map Feed.timestamp → ∃ time,
      writtenIn log kind feed.timestamp =
        [(some (feed.timestamp + conf.lag), kind.genuine feed time)])

/-- The tick of such a record. -/
def recordTick? (kind : RecordKind) (write : Write) : Option Int :=
  (ownRecord? kind write).map Record.exchangeTimestamp

def PassLog.records (kind : RecordKind) (entry : PassLog) : List Int :=
  entry.writes.filterMap (recordTick? kind)

theorem PassLog.records_eq (kind : RecordKind) (entry : PassLog) : entry.records kind =
    (entry.writes.filterMap (ownRecord? kind)).map Record.exchangeTimestamp :=
  List.map_filterMap.symm

def PassLog.lineEntry (conf : Conf) (kind : RecordKind) (entry : PassLog) :
    Option DelayLine.Entry :=
  entry.sent.map (fun feed =>
    ⟨feed.timestamp, decide (feed.Faulty conf .delay), entry.records kind⟩)

def lineEntries (conf : Conf) (kind : RecordKind) (log : List PassLog) : List DelayLine.Entry :=
  log.filterMap (PassLog.lineEntry conf kind)

section LineEntries

variable {conf : Conf} {kind : RecordKind} {log : List PassLog}

theorem mem_lineEntries {e : DelayLine.Entry} (he : e ∈ lineEntries conf kind log) :
    ∃ feed ∈ sentFeeds log, e.time = feed.timestamp ∧
      e.held = decide (feed.Faulty conf .delay) := by
  obtain ⟨entry, hentry, heq⟩ := List.mem_filterMap.mp he
  obtain ⟨feed, hsent, rfl⟩ := Option.map_eq_some_iff.mp heq
  exact ⟨feed, mem_sentFeeds.mpr ⟨entry, hentry, hsent⟩, rfl, rfl⟩

theorem exists_lineEntry (conf : Conf) (kind : RecordKind) {feed : Feed}
    (hfeed : feed ∈ sentFeeds log) :
    ∃ e ∈ lineEntries conf kind log, e.time = feed.timestamp ∧
      e.held = decide (feed.Faulty conf .delay) := by
  obtain ⟨entry, hentry, hsent⟩ := mem_sentFeeds.mp hfeed
  refine ⟨⟨feed.timestamp, decide (feed.Faulty conf .delay), entry.records kind⟩,
    List.mem_filterMap.mpr ⟨entry, hentry, ?_⟩, rfl, rfl⟩
  rw [PassLog.lineEntry, hsent]
  rfl

theorem lineEntries_times :
    (lineEntries conf kind log).map DelayLine.Entry.time =
      (sentFeeds log).map Feed.timestamp := by
  unfold lineEntries sentFeeds
  rw [List.map_filterMap, List.map_filterMap]
  apply List.filterMap_congr
  intro entry _
  cases hsent : entry.sent with
  | none => simp [PassLog.lineEntry, hsent]
  | some feed => simp [PassLog.lineEntry, hsent]

/-- The passes that write a record of tick `t`. -/
theorem writtenIn_passes (conf : Conf)
    (hidle : ∀ entry ∈ log, entry.sent = none → entry.records kind = [])
    (t : Int) : (writtenIn log kind t).map Prod.fst =
      (DelayLine.sentAt (lineEntries conf kind log) t).map some := by
  have hpass : ∀ entry : PassLog, (((entry.writes.filterMap (ownRecord? kind)).filter
      (fun result => decide (result.exchangeTimestamp = t))).map
        (fun result => (entry.sent.map Feed.timestamp, result))).map Prod.fst =
      ((entry.records kind).filter (fun x => decide (x = t))).map
        (fun _ => entry.sent.map Feed.timestamp) := by
    intro entry
    rw [entry.records_eq, List.filter_map, List.map_map, List.map_map]
    rfl
  unfold writtenIn
  rw [List.map_flatMap]
  simp only [hpass]
  induction log with
  | nil => rfl
  | cons entry log ih =>
      obtain ⟨hentry, hlog⟩ := List.forall_mem_cons.mp hidle
      have hrest := ih hlog
      unfold DelayLine.sentAt lineEntries at hrest ⊢
      rw [List.flatMap_cons, hrest]
      cases hsent : entry.sent with
      | none =>
          rw [List.filterMap_cons_none (by simp [PassLog.lineEntry, hsent]), hentry hsent]
          rfl
      | some feed =>
          have hline : PassLog.lineEntry conf kind entry =
              some ⟨feed.timestamp, decide (feed.Faulty conf .delay), entry.records kind⟩ := by
            rw [PassLog.lineEntry, hsent]
            rfl
          rw [List.filterMap_cons_some hline, List.flatMap_cons, List.map_append, List.map_map]
          rfl

/-- If all records are as their feeds have them, the demand on the log is that
the line works as it should. -/
theorem resentOnce_iff (hidle : ∀ entry ∈ log, entry.sent = none → entry.records kind = [])
    (hgenuine : ∀ feed ∈ sentFeeds log, ∀ p ∈ writtenIn log kind feed.timestamp,
      ∃ time, p.2 = kind.genuine feed time) :
    ResentOnce conf kind log ↔ DelayLine.Exact conf.lag (lineEntries conf kind log) := by
  have hwritten : ∀ feed ∈ sentFeeds log, ∀ u,
      (∃ time, writtenIn log kind feed.timestamp = [(some u, kind.genuine feed time)]) ↔
        DelayLine.sentAt (lineEntries conf kind log) feed.timestamp = [u] := by
    intro feed hfeed u
    have hpasses := writtenIn_passes conf hidle feed.timestamp
    constructor
    · rintro ⟨time, heq⟩
      rw [heq] at hpasses
      exact (List.map_injective_iff.mpr (Option.some_injective _) hpasses).symm
    · intro heq
      rw [heq] at hpasses
      obtain ⟨p, hp, hfst⟩ := List.map_eq_singleton_iff.mp hpasses
      obtain ⟨time, hsnd⟩ := hgenuine feed hfeed p (hp ▸ List.mem_singleton_self p)
      exact ⟨time, by rw [hp, ← hfst, ← hsnd]⟩
  constructor
  · intro h e he
    obtain ⟨feed, hfeed, htime, hheld⟩ := mem_lineEntries he
    obtain ⟨hown, hdelayed⟩ := h feed hfeed
    rw [htime, hheld, lineEntries_times, decide_eq_false_iff_not, decide_eq_true_iff]
    exact ⟨fun hf => (hwritten feed hfeed _).mp (hown hf),
      fun hf hmem => (hwritten feed hfeed _).mp (hdelayed hf hmem)⟩
  · intro h feed hfeed
    obtain ⟨e, he, htime, hheld⟩ := exists_lineEntry conf kind hfeed
    have hexact := h e he
    rw [htime, hheld, lineEntries_times, decide_eq_false_iff_not, decide_eq_true_iff] at hexact
    exact ⟨fun hf => (hwritten feed hfeed _).mpr (hexact.1 hf),
      fun hf hmem => (hwritten feed hfeed _).mpr (hexact.2 hf hmem)⟩

end LineEntries

theorem RecordKind.lines_delay (conf : Conf) (kind : RecordKind) (feed : Feed) (time : Int) :
    kind.lines conf (some .delay) feed time =
      if kind.Enabled conf then [⟨.error, .marked .delay (kind.genuine feed time)⟩] else [] := by
  cases kind <;> rfl

theorem RecordKind.genuine_kind (kind : RecordKind) (feed : Feed) (time : Int) :
    (kind.genuine feed time).kind = kind := by
  cases kind <;> rfl

theorem RecordKind.genuine_exchangeTimestamp (kind : RecordKind) {feed : Feed}
    (hprice : feed.priceFeed.exchangeTimestamp = feed.timestamp) (time : Int) :
    (kind.genuine feed time).exchangeTimestamp = feed.timestamp := by
  cases kind with
  | statistics => rfl
  | price => exact hprice

theorem RecordKind.records_write (kind other : RecordKind) {conf : Conf} {feed : Feed}
    (hprice : feed.priceFeed.exchangeTimestamp = feed.timestamp)
    (honly : ∀ mark, feed.Faulty conf mark → mark = .delay) (time : Int) :
    (other.write feed conf time).filterMap (recordTick? kind) =
      if other = kind ∧ other.Enabled conf ∧ ¬ feed.Faulty conf .delay then [feed.timestamp]
      else [] := by
  rw [other.write_eq_lines honly hprice]
  by_cases hfaulty : feed.Faulty conf .delay
  · rw [if_pos hfaulty, if_neg (fun h => h.2.2 hfaulty), other.lines_delay]
    split_ifs <;> rfl
  · rw [if_neg hfaulty]
    unfold lines
    by_cases henabled : other.Enabled conf
    · have htick : recordTick? kind ⟨.own, .record (other.genuine feed time)⟩ =
          if other = kind then some feed.timestamp else none := by
        rw [recordTick?, ownRecord?, other.genuine_kind, apply_ite (Option.map _), Option.map_some,
          Option.map_none, other.genuine_exchangeTimestamp hprice]
      simp only [henabled, hfaulty, if_true, not_false_eq_true, and_true,
        Option.filter_none, List.filterMap_cons, List.filterMap_nil, htick]
      split_ifs <;> rfl
    · simp [henabled]

theorem RecordKind.records_writes (kind : RecordKind) {conf : Conf} {feed : Feed}
    (statisticsTime priceTime : Int)
    (hprice : feed.priceFeed.exchangeTimestamp = feed.timestamp)
    (honly : ∀ mark, feed.Faulty conf mark → mark = .delay) (henabled : kind.Enabled conf) :
    (writeStatisticsFeed feed conf statisticsTime ++
        writePriceFeed feed conf priceTime).filterMap (recordTick? kind) =
      if feed.Faulty conf .delay then [] else [feed.timestamp] := by
  have hstatistics := kind.records_write .statistics hprice honly statisticsTime
  have hpriceLines := kind.records_write .price hprice honly priceTime
  rw [List.filterMap_append]
  change List.filterMap _ (RecordKind.statistics.write _ conf _) ++
    List.filterMap _ (RecordKind.price.write _ conf _) = _
  rw [hstatistics, hpriceLines]
  cases kind with
  | statistics =>
      by_cases hfaulty : feed.Faulty conf .delay
      · simp [hfaulty]
      · simp [henabled, hfaulty]
  | price =>
      by_cases hfaulty : feed.Faulty conf .delay
      · simp [hfaulty]
      · simp [henabled, hfaulty]

/-- The state of a thread and the state of the line that it stands for. -/
structure ThreadState.Simulates (conf : Conf) (line : DelayLine) (s : ThreadState)
    (d : DelayLine.State) : Prop where
  single : s.Single conf .delay
  tenths : 100000000 ∣ s.feed.timestamp
  budget : line.trigger.budget = conf.delay.amount
  period : line.trigger.period = conf.delay.interval * 1000000000
  current : s.feed.delay.current = d.current
  next : line.trigger.time d.current = 100000000 * s.feed.delay.next
  timer : d.timer = 100000000 * s.feed.nextResendTimestamp
  queue : s.delayQueue.map Feed.timestamp = d.queue

namespace ThreadState.Simulates

variable {conf : Conf} {kind : RecordKind} {line : DelayLine} {s : ThreadState}
  {d : DelayLine.State} (h : s.Simulates conf line d)

include h

theorem held_iff (inputs : PassInputs) : (s.next conf inputs).Faulty conf .delay ↔
    line.Holds d (s.feed.timestamp + 500000000) := by
  have htenths := h.tenths
  unfold DelayLine.Holds
  rw [h.budget, h.next, ← h.current]
  constructor
  · rintro ⟨_, hcurrent, htime⟩
    change (s.feed.timestamp + 500000000) / 100000000 = s.feed.delay.next at htime
    exact ⟨hcurrent, by omega⟩
  · rintro ⟨hcurrent, htime⟩
    refine ⟨(h.single.only .delay).mpr rfl, hcurrent, ?_⟩
    change (s.feed.timestamp + 500000000) / 100000000 = s.feed.delay.next
    omega

theorem resendsNow_iff (inputs : PassInputs) : (s.counted conf inputs).ResendsNow conf ↔
    s.feed.timestamp + 500000000 = d.timer := by
  have htenths := h.tenths
  have hnow : (s.counted conf inputs).ResendsNow conf ↔
      (s.feed.timestamp + 500000000) / 100000000 = s.feed.nextResendTimestamp := by
    unfold ResendsNow
    rw [counted_feed]
    exact ⟨fun hdue => hdue.2, fun hdue => ⟨(h.single.only .delay).mpr rfl, hdue⟩⟩
  rw [hnow, h.timer]
  omega

theorem counted_queue (inputs : PassInputs) :
    (s.counted conf inputs).delayQueue.map Feed.timestamp =
      line.waiting d (s.feed.timestamp + 500000000) := by
  unfold DelayLine.waiting
  rw [ThreadState.counted_queue, List.map_append, h.queue]
  simp only [h.held_iff inputs]
  split_ifs
  · rw [counted_feed]
    rfl
  · exact List.append_nil _

/-- The records of the feed itself. -/
theorem own_records (inputs : PassInputs) (henabled : kind.Enabled conf) :
    (writeStatisticsFeed (s.next conf inputs) conf inputs.statisticsTime ++
        writePriceFeed (s.next conf inputs) conf inputs.priceTime).filterMap (recordTick? kind) =
      if line.Holds d (s.feed.timestamp + 500000000) then []
      else [s.feed.timestamp + 500000000] := by
  have honly : ∀ mark, (s.next conf inputs).Faulty conf mark → mark = .delay :=
    fun mark hfaulty => (h.single.only mark).mp hfaulty.1
  rw [kind.records_writes _ _ (s.next_priceTimestamp conf inputs) honly henabled]
  simp only [h.held_iff inputs, next_timestamp]

/-- The records of a feed that is resent. -/
theorem resent_records (hinterval : 0 < conf.delay.interval) (inputs : PassInputs)
    (henabled : kind.Enabled conf) :
    ((s.counted conf inputs).resentLines conf inputs).filterMap (recordTick? kind) =
      if s.feed.timestamp + 500000000 = d.timer then
        (line.waiting d (s.feed.timestamp + 500000000)).take 1
      else [] := by
  have hwaits := h.single.waits.counted hinterval inputs
  unfold resentLines
  simp only [h.resendsNow_iff inputs, ← h.counted_queue inputs]
  split_ifs with htimer
  · cases hqueue : (s.counted conf inputs).delayQueue with
    | nil => rfl
    | cons delayed rest =>
        have hdelayed := hwaits delayed (by rw [hqueue]; exact List.mem_cons_self)
        have honly : ∀ mark, delayed.Faulty conf mark → mark = .delay := by
          intro mark hfaulty
          have hrange := hfaulty.1
          rw [hdelayed.id] at hrange
          exact (h.single.only mark).mp hrange
        have hlines := kind.records_writes inputs.resendStatisticsTime
          inputs.resendPriceTime hdelayed.price honly henabled
        rw [if_neg (hdelayed.not_faulty conf)] at hlines
        have hresend : recordTick? kind ⟨.error, .resend delayed.timestamp⟩ = none := rfl
        simp only [List.take_succ_cons, List.take_zero, List.flatMap_cons, List.flatMap_nil,
          List.append_nil, List.filterMap_cons_none hresend, hlines, List.map_cons]
  · rfl

/-- One pass of the thread is one step of the line. -/
theorem lineEntry_eq (hinterval : 0 < conf.delay.interval)
    (henabled : kind.Enabled conf) {nowTime : Int} (hsends : s.Sends nowTime)
    (randomLogSet : List String) (inputs : PassInputs) :
    (s.passLog conf randomLogSet nowTime inputs).lineEntry conf kind =
      some (line.entry d (s.feed.timestamp + 500000000)) := by
  obtain ⟨hsent, hwrites⟩ := passLog_of_sends s conf randomLogSet nowTime inputs hsends
  have hrecords : (s.passLog conf randomLogSet nowTime inputs).records kind =
      (line.entry d (s.feed.timestamp + 500000000)).sent := by
    unfold PassLog.records
    rw [hwrites, List.filterMap_append, h.own_records inputs henabled,
      h.resent_records hinterval inputs henabled]
    rfl
  have hheld := h.held_iff inputs
  unfold PassLog.lineEntry
  rw [hsent, Option.map_some, hrecords, next_timestamp]
  simp only [hheld]
  rfl

theorem pass (hinterval : 0 < conf.delay.interval) {nowTime : Int} (hsends : s.Sends nowTime)
    (randomLogSet : List String) (inputs : PassInputs) :
    (s.pass conf randomLogSet nowTime inputs).Simulates conf line
      (line.next d (s.feed.timestamp + 500000000)) := by
  have htenths := h.tenths
  have hperiod := h.period
  have hheld := h.held_iff inputs
  have hdue : due conf.delay s.feed.delay s.feed.feedCodeId (s.feed.timestamp + 500000000) ↔
      line.Holds d (s.feed.timestamp + 500000000) := hheld
  have hlength := congrArg List.length (h.counted_queue inputs)
  rw [List.length_map] at hlength
  have hschedule : (s.pass conf randomLogSet nowTime inputs).feed.delay =
      if line.Holds d (s.feed.timestamp + 500000000) then
        ⟨s.feed.delay.next + conf.delay.interval * 10, s.feed.delay.current + 1⟩
      else s.feed.delay := by
    have hadvance := pass_schedule s conf randomLogSet nowTime inputs hsends .delay
    simp only [Feed.schedule, Conf.fault, Schedule.advance, hdue] at hadvance
    exact hadvance
  constructor
  · exact h.single.pass hinterval randomLogSet nowTime inputs
  · rw [(pass_feed s conf randomLogSet nowTime inputs hsends).1]
    omega
  · exact h.budget
  · exact h.period
  · rw [hschedule]
    unfold DelayLine.next
    dsimp only
    split_ifs
    · dsimp only
      rw [h.current]
    · exact h.current
  · rw [hschedule]
    have hnext := h.next
    unfold DelayLine.next
    dsimp only
    split_ifs
    · rw [Periodic.time_succ]
      dsimp only
      omega
    · exact hnext
  · have htimer := h.timer
    rw [pass_nextResendTimestamp s conf randomLogSet nowTime inputs hsends, hlength]
    simp only [h.resendsNow_iff inputs]
    unfold DelayLine.next
    dsimp only
    split_ifs
    · omega
    · exact htimer
  · rw [pass_delayQueue s conf randomLogSet nowTime inputs hsends]
    simp only [h.resendsNow_iff inputs]
    unfold DelayLine.next
    rw [← h.counted_queue inputs]
    dsimp only
    split_ifs
    · exact List.map_tail
    · rfl

/-- A pass that sends nothing leaves the line as it is. -/
theorem pass_idle (kind : RecordKind) {nowTime : Int} (hidle : ¬ s.Sends nowTime)
    (randomLogSet : List String) (inputs : PassInputs) :
    (s.pass conf randomLogSet nowTime inputs).Simulates conf line d ∧
      (s.passLog conf randomLogSet nowTime inputs).lineEntry conf kind = none := by
  refine ⟨?_, ?_⟩
  · rw [pass_of_not_sends s conf randomLogSet nowTime inputs hidle]
    exact ⟨⟨h.single.only, h.single.waits⟩, h.tenths, h.budget, h.period, h.current, h.next,
      h.timer, h.queue⟩
  · unfold PassLog.lineEntry
    rw [(passLog_of_not_sends s conf randomLogSet nowTime inputs hidle).1]
    rfl

/-- The run of the thread is the run of the line over the ticks. -/
theorem loopLog (hinterval : 0 < conf.delay.interval) (henabled : kind.Enabled conf)
    (randomLogSet : List String) (endTime : Int) (passes : List PassInputs) (nowTime : Int) :
    lineEntries conf kind (loopLog conf randomLogSet endTime passes nowTime s) =
      line.run (clockTicks endTime (passes.map PassInputs.nowTime) nowTime s.feed.timestamp)
        d := by
  induction passes generalizing nowTime s d with
  | nil => rfl
  | cons inputs rest ih =>
      simp only [ThreadState.loopLog, List.map_cons, clockTicks]
      split_ifs with htime hsends
      · have hsent : s.Sends nowTime := hsends
        have hnext := ih (h.pass hinterval hsent randomLogSet inputs) inputs.nowTime
        rw [(pass_feed s conf randomLogSet nowTime inputs hsent).1] at hnext
        unfold lineEntries at hnext ⊢
        rw [List.filterMap_cons_some
          (h.lineEntry_eq hinterval henabled hsent randomLogSet inputs), hnext, DelayLine.run]
      · have hidle : ¬ s.Sends nowTime := hsends
        obtain ⟨hsame, hnone⟩ := h.pass_idle kind hidle randomLogSet inputs
        have hnext := ih hsame inputs.nowTime
        unfold lineEntries at hnext ⊢
        rw [List.filterMap_cons_none hnone, hnext,
          pass_of_not_sends s conf randomLogSet nowTime inputs hidle]
      · rfl

end ThreadState.Simulates

/-- The delay line that a thread stands for. -/
def Conf.delayLine (conf : Conf) (nowTime : Int) (hinterval : 0 < conf.delay.interval)
    (hamount : 0 < conf.delay.amount) (hlength : 0 < conf.delayTimeLength) : DelayLine where
  trigger := conf.trigger nowTime .delay hinterval
  lag := conf.lag
  budget_pos := hamount
  lag_pos := nanoseconds_pos hlength

theorem threadStart_simulates {conf : Conf} {i : Nat} (inputs : ThreadInputs)
    (hinterval : 0 < conf.delay.interval) (hamount : 0 < conf.delay.amount)
    (hlength : 0 < conf.delayTimeLength) (honly : OnlyIn conf i .delay) :
    (threadStart conf i inputs).Simulates conf
      (conf.delayLine inputs.nowTime hinterval hamount hlength)
      (conf.delayLine inputs.nowTime hinterval hamount hlength).start := by
  have hfirst : (conf.delayLine inputs.nowTime hinterval hamount hlength).trigger.first =
      baseTime inputs.nowTime + conf.delay.interval * 1000000000 := rfl
  have hdelay : (threadStart conf i inputs).feed.delay =
      ⟨inputs.nowTime / 500 * 5 + conf.delay.interval * 10, 0⟩ := rfl
  have hresend : (threadStart conf i inputs).feed.nextResendTimestamp =
      inputs.nowTime / 500 * 5 + conf.delay.interval * 10 + conf.delayTimeLength * 10 := rfl
  refine ⟨⟨honly, fun delayed hdelayed => by cases hdelayed⟩, ?_, rfl, rfl, rfl, ?_, ?_, rfl⟩
  · rw [threadStart_timestamp]
    unfold baseTime
    omega
  · rw [hdelay]
    simp only [DelayLine.start, Periodic.time, zero_mul, add_zero]
    rw [hfirst]
    unfold baseTime
    omega
  · rw [hresend]
    simp only [DelayLine.start]
    rw [hfirst]
    change baseTime inputs.nowTime + conf.delay.interval * 1000000000 +
      conf.delayTimeLength * 1000000000 = _
    unfold baseTime
    omega

section Runs

variable {conf : Conf} {words : String → List Sample} {i : Nat} {inputs : ThreadInputs}
  {kind : RecordKind}

theorem threadLog_idle_records :
    ∀ entry ∈ threadLog conf words i inputs, entry.sent = none → entry.records kind = [] := by
  intro entry hentry hnone
  apply List.filterMap_eq_nil_iff.mpr
  intro write hwrite
  obtain ⟨timestamp, message, rfl⟩ := threadLog_idle words inputs entry hentry hnone write hwrite
  rfl

/-- No two feeds of a run have the same tick. -/
theorem eq_of_timestamp_eq {feed other : Feed}
    (hfeed : feed ∈ sentFeeds (threadLog conf words i inputs))
    (hother : other ∈ sentFeeds (threadLog conf words i inputs))
    (heq : feed.timestamp = other.timestamp) : feed = other := by
  obtain ⟨n, hn⟩ := threadTicks_eq conf inputs
  have hnodup : ((sentFeeds (threadLog conf words i inputs)).map Feed.timestamp).Nodup := by
    rw [threadLog_ticks, hn]
    exact (pointsFrom_pairwise (by decide) _ n).imp ne_of_lt
  exact List.inj_on_of_nodup_map hnodup hfeed hother heq

/-- What a pass writes into the instrument's log are records as the feeds of the
run have them. -/
theorem PassLog.Shows.own_record {before : List Feed} {fault : Option Mark} {feed : Feed}
    {entry : PassLog} (h : entry.Shows conf before fault feed)
    (hfault : ∀ mark ∈ fault, mark = .delay) (hfeed : feed ∈ before) {r : Record}
    (hr : ⟨.own, .record r⟩ ∈ entry.writes) :
    ∃ source ∈ before, ∃ (kind : RecordKind) (time : Int), r = kind.genuine source time := by
  have hnone : ∀ source ∈ before, ∀ time time', ⟨.own, .record r⟩ ∈
      RecordKind.statistics.lines conf none source time ++
        RecordKind.price.lines conf none source time' →
      ∃ source ∈ before, ∃ (kind : RecordKind) (time : Int), r = kind.genuine source time := by
    intro source hsource time time' hline
    rcases List.mem_append.mp hline with hline | hline
    · cases RecordKind.mem_lines_none _ hline
      exact ⟨source, hsource, .statistics, time, rfl⟩
    · cases RecordKind.mem_lines_none _ hline
      exact ⟨source, hsource, .price, time', rfl⟩
  obtain ⟨_, time, time', resent, hwrites, hresent⟩ := h
  rw [hwrites] at hr
  rcases List.mem_append.mp hr with hown | hline
  · cases fault with
    | none => exact hnone feed hfeed _ _ hown
    | some mark =>
        rw [hfault mark rfl, RecordKind.lines_delay, RecordKind.lines_delay] at hown
        rcases List.mem_append.mp hown with hline | hline <;> split_ifs at hline <;> simp at hline
  · rcases hresent with rfl | ⟨delayed, hdelayed, _, time, time', rfl⟩
    · cases hline
    · rcases List.mem_cons.mp hline with hline | hline
      · cases hline
      · exact hnone delayed hdelayed _ _ hline

/-- The records of a tick in the instrument's log are as its feed has them. -/
theorem writtenIn_genuine (hinterval : 0 < conf.delay.interval) (honly : OnlyIn conf i .delay) :
    ∀ feed ∈ sentFeeds (threadLog conf words i inputs),
      ∀ p ∈ writtenIn (threadLog conf words i inputs) kind feed.timestamp,
        ∃ time, p.2 = kind.genuine feed time := by
  intro feed hfeed p hp
  obtain ⟨entry, hentry, hp⟩ := List.mem_flatMap.mp hp
  obtain ⟨r, hr, rfl⟩ := List.mem_map.mp hp
  obtain ⟨hr, htick⟩ := List.mem_filter.mp hr
  obtain ⟨write, hwrite, hrecord⟩ := List.mem_filterMap.mp hr
  obtain ⟨rfl, hkind⟩ := ownRecord?_eq_some.mp hrecord
  cases hsent : entry.sent with
  | none =>
      obtain ⟨timestamp, message, hnoise⟩ :=
        threadLog_idle words inputs entry hentry hsent _ hwrite
      cases hnoise
  | some sent =>
      have hshows := threadLog_shows words inputs hinterval honly entry hentry sent hsent
      have hfault : ∀ mark ∈ (if sent.Faulty conf .delay then some Mark.delay else none),
          mark = .delay := by
        intro mark hmark
        split_ifs at hmark
        · exact (Option.mem_some.mp hmark).symm
        · cases hmark
      obtain ⟨source, hsource, other, time, rfl⟩ :=
        hshows.own_record hfault (mem_sentFeeds.mpr ⟨entry, hentry, hsent⟩) hwrite
      rw [other.genuine_kind] at hkind
      rw [other.genuine_exchangeTimestamp (threadLog_priceTimestamp source hsource),
        decide_eq_true_iff] at htick
      exact ⟨time, by rw [hkind, eq_of_timestamp_eq hsource hfeed htick]⟩

/-- Lines of a kind that is switched off are not written at all. -/
theorem threadLog_disabled_records (hinterval : 0 < conf.delay.interval)
    (honly : OnlyIn conf i .delay) (hdisabled : ¬ kind.Enabled conf) :
    ∀ entry ∈ threadLog conf words i inputs, entry.records kind = [] := by
  refine ThreadState.forall_mem_loopLog (I := fun s => s.Single conf .delay) ?_ _ _
    (s := threadStart conf i inputs) ⟨honly, fun delayed hdelayed => by cases hdelayed⟩
  intro s nowTime inputs h
  refine ⟨h.pass hinterval _ nowTime inputs, ?_⟩
  have hnone : ∀ {feed : Feed}, feed.priceFeed.exchangeTimestamp = feed.timestamp →
      feed.feedCodeId = s.feed.feedCodeId → ∀ (other : RecordKind) time,
      (other.write feed conf time).filterMap (recordTick? kind) = [] := by
    intro feed hprice hid other time
    rw [kind.records_write other hprice ?_ time, if_neg]
    · rintro ⟨rfl, henabled, _⟩
      exact hdisabled henabled
    · intro mark hfaulty
      have hrange := hfaulty.1
      rw [hid] at hrange
      exact (h.only mark).mp hrange
  by_cases hsends : s.Sends nowTime
  · obtain ⟨_, hwrites⟩ := s.passLog_of_sends conf (generateRandomData words) nowTime inputs hsends
    have hown := hnone (s.next_priceTimestamp conf inputs) (s.next_feedCodeId conf inputs)
    have hresent : ((s.counted conf inputs).resentLines conf inputs).filterMap
        (recordTick? kind) = [] := by
      unfold ThreadState.resentLines
      split_ifs
      · rw [List.filterMap_flatMap, List.flatMap_eq_nil_iff]
        intro delayed htaken
        have hdelayed := h.waits.counted hinterval inputs delayed (List.mem_of_mem_take htaken)
        have hlines := hnone hdelayed.price hdelayed.id
        have hmark : recordTick? kind ⟨.error, .resend delayed.timestamp⟩ = none := rfl
        rw [List.filterMap_cons_none hmark, List.filterMap_append]
        exact List.append_eq_nil_iff.mpr ⟨hlines .statistics _, hlines .price _⟩
      · rfl
    unfold PassLog.records
    rw [hwrites, List.filterMap_append, List.filterMap_append, hresent, List.append_nil]
    exact List.append_eq_nil_iff.mpr ⟨hown .statistics _, hown .price _⟩
  · apply List.filterMap_eq_nil_iff.mpr
    intro write hwrite
    obtain ⟨timestamp, message, rfl⟩ :=
      (s.passLog_of_not_sends conf _ nowTime inputs hsends).2 write hwrite
    rfl

/-- The first tick that is to be delayed. -/
def Conf.firstDelay (conf : Conf) (nowTime : Int) : Int := baseTime nowTime + conf.period .delay

/-- Lines of a kind that is written. -/
theorem resentOnce_of_enabled (hinterval : 0 < conf.delay.interval)
    (hamount : 0 < conf.delay.amount) (hlength : 0 < conf.delayTimeLength)
    (honly : OnlyIn conf i .delay) (henabled : kind.Enabled conf) :
    ResentOnce conf kind (threadLog conf words i inputs) ↔
      conf.firstDelay inputs.nowTime ≤ baseTime inputs.init.timestamp ∨ conf.delay.amount = 1 ∨
        conf.delay.interval ≤ conf.delayTimeLength ∨
        conf.firstDelay inputs.nowTime + conf.period .delay + conf.lag ∉
          threadTicks conf inputs := by
  let line := conf.delayLine inputs.nowTime hinterval hamount hlength
  have hsimulates := threadStart_simulates inputs hinterval hamount hlength honly
  have hentries : lineEntries conf kind (threadLog conf words i inputs) =
      line.run (threadTicks conf inputs) line.start :=
    hsimulates.loopLog hinterval henabled _ _ _ _
  obtain ⟨n, hn⟩ := threadTicks_eq conf inputs
  have hlag : (500000000 : Int) ∣ line.lag := by
    change 500000000 ∣ conf.delayTimeLength * 1000000000
    omega
  have hexact := line.exact_iff (by decide)
    (trigger_onGrid conf inputs.nowTime inputs.init.timestamp .delay hinterval) hlag n
  have hperiod : line.trigger.period ≤ line.lag ↔
      conf.delay.interval ≤ conf.delayTimeLength := by
    change conf.delay.interval * 1000000000 ≤ conf.delayTimeLength * 1000000000 ↔ _
    omega
  have hsecond : line.trigger.time 1 = conf.firstDelay inputs.nowTime + conf.period .delay := by
    unfold Periodic.time
    rw [one_mul]
    rfl
  rw [hperiod, hsecond, ← hn] at hexact
  rw [resentOnce_iff threadLog_idle_records (writtenIn_genuine hinterval honly), hentries]
  exact hexact

/-- If at most the first tick that is to be delayed is generated, nothing has to
be written. -/
theorem resentOnce_of_only_first (hinterval : 0 < conf.delay.interval)
    (hamount : 0 < conf.delay.amount) (hlength : 0 < conf.delayTimeLength)
    (honly : OnlyIn conf i .delay)
    (hfirst : ∀ t ∈ threadTicks conf inputs, t = conf.firstDelay inputs.nowTime) :
    ResentOnce conf kind (threadLog conf words i inputs) := by
  have hfaults := threadLog_faulty_iff words inputs .delay hinterval hamount
    ((honly .delay).mpr rfl)
  rw [← threadLog_ticks conf words i] at hfirst
  intro feed hfeed
  have htick := hfirst _ (List.mem_map_of_mem hfeed)
  obtain ⟨n, hn⟩ := threadTicks_eq conf inputs
  have hmem : feed.timestamp ∈ threadTicks conf inputs := by
    rw [← threadLog_ticks conf words i]
    exact List.mem_map_of_mem hfeed
  rw [hn] at hmem
  have hafter := ((mem_pointsFrom (by decide)).mp hmem).1
  have hfaulty : feed.Faulty conf .delay := by
    refine (hfaults feed hfeed).mpr ⟨?_, 0, le_rfl, hamount, ?_⟩
    · rw [htick] at hafter
      exact hafter
    · rw [htick]
      rw [Periodic.time_zero]
      rfl
  refine ⟨fun hfree => absurd hfaulty hfree, ?_⟩
  intro _ hresend
  have hlag : conf.lag = conf.delayTimeLength * 1000000000 := rfl
  have := hfirst _ hresend
  omega

/-- If the lines of the kind are not written, every generated tick has to be one
that is withheld. -/
theorem fires_of_disabled (hinterval : 0 < conf.delay.interval)
    (hamount : 0 < conf.delay.amount) (honly : OnlyIn conf i .delay)
    (hdisabled : ¬ kind.Enabled conf)
    (h : ResentOnce conf kind (threadLog conf words i inputs)) :
    ∀ t ∈ threadTicks conf inputs, baseTime inputs.init.timestamp <
        (conf.trigger inputs.nowTime .delay hinterval).first ∧
      (conf.trigger inputs.nowTime .delay hinterval).Fires t := by
  have hunwritten : ∀ t, writtenIn (threadLog conf words i inputs) kind t = [] := by
    intro t
    apply List.flatMap_eq_nil_iff.mpr
    intro entry hentry
    have hnone := threadLog_disabled_records hinterval honly hdisabled entry hentry
    rw [entry.records_eq, List.map_eq_nil_iff] at hnone
    rw [hnone]
    rfl
  intro t ht
  rw [← threadLog_ticks conf words i] at ht
  obtain ⟨feed, hfeed, rfl⟩ := List.mem_map.mp ht
  refine (threadLog_faulty_iff words inputs .delay hinterval hamount
    ((honly .delay).mpr rfl) feed hfeed).mp ?_
  by_contra hfree
  obtain ⟨time, hwritten⟩ := (h feed hfeed).1 hfree
  rw [hunwritten] at hwritten
  cases hwritten

/-- The trigger goes off on whole seconds from its first time on. -/
theorem trigger_seconds (nowTime : Int) (hinterval : 0 < conf.delay.interval) (k : Int) :
    (1000000000 : Int) ∣ (conf.trigger nowTime .delay hinterval).time k -
      (conf.trigger nowTime .delay hinterval).first := by
  have hsplit : (conf.trigger nowTime .delay hinterval).time k -
      (conf.trigger nowTime .delay hinterval).first = k * (conf.delay.interval * 1000000000) :=
    add_sub_cancel_left _ _
  rw [hsplit]
  exact Dvd.dvd.mul_left (Dvd.intro_left _ rfl) k

/-- Two ticks in a row are never both withheld, so only the first is generated. -/
theorem only_first_of_disabled (hinterval : 0 < conf.delay.interval)
    (hamount : 0 < conf.delay.amount) (honly : OnlyIn conf i .delay)
    (hdisabled : ¬ kind.Enabled conf)
    (h : ResentOnce conf kind (threadLog conf words i inputs)) :
    ∀ t ∈ threadTicks conf inputs, t = conf.firstDelay inputs.nowTime := by
  let trigger := conf.trigger inputs.nowTime .delay hinterval
  have hfires : ∀ t ∈ threadTicks conf inputs,
      baseTime inputs.init.timestamp < trigger.first ∧ trigger.Fires t :=
    fires_of_disabled hinterval hamount honly hdisabled h
  have hseconds : ∀ k, (1000000000 : Int) ∣ trigger.time k - trigger.first :=
    trigger_seconds inputs.nowTime hinterval
  obtain ⟨n, hn⟩ := threadTicks_eq conf inputs
  have hgrid := trigger_onGrid conf inputs.nowTime inputs.init.timestamp .delay hinterval
  intro t ht
  change t = trigger.first
  obtain ⟨hahead, k, hk, _, htime⟩ := hfires t ht
  have hmem := ht
  rw [hn, mem_pointsFrom (by decide)] at hmem
  obtain ⟨hafter, hle, hdvd⟩ := hmem
  have hzero : trigger.time 0 = trigger.first := Periodic.time_zero
  have hnext := hgrid.step_le (k := 0) (hahead.trans_eq hzero.symm)
  have hlow : trigger.time 0 ≤ trigger.time k := Periodic.time_le_iff.mpr hk
  change baseTime inputs.init.timestamp + 500000000 ≤ trigger.time 0 at hnext
  by_contra hne
  -- the tick before is generated as well, half a second earlier
  have hbefore : t - 500000000 ∈ threadTicks conf inputs := by
    rw [hn, mem_pointsFrom (by decide)]
    have hfirstDvd : (500000000 : Int) ∣ trigger.first - baseTime inputs.init.timestamp :=
      hgrid.first
    exact ⟨by omega, by omega, by omega⟩
  obtain ⟨_, l, _, _, htime'⟩ := hfires _ hbefore
  have hk' := hseconds k
  have hl' := hseconds l
  rw [← htime] at hk'
  rw [← htime'] at hl'
  omega

end Runs

/-- For an instrument that only the delay concerns, in every run: the Statistics
and Price lines are written as they should be if and only if both are written
at all and either feeds are kept at least as long as the interval between two
of them, or there is only one, or the schedule is over before it starts, or the
run ends before the second delayed tick is to be resent; or if the run
generates no tick but the first one to be delayed. -/
theorem delayed_resent_once_iff {conf : Conf} (words : String → List Sample) {i : Nat}
    {inputs : ThreadInputs} (hinterval : 0 < conf.delay.interval)
    (hamount : 0 < conf.delay.amount) (hlength : 0 < conf.delayTimeLength)
    (honly : OnlyIn conf i .delay) :
    (∀ kind, ResentOnce conf kind (threadLog conf words i inputs)) ↔
      ((∀ kind : RecordKind, kind.Enabled conf) ∧
        (conf.firstDelay inputs.nowTime ≤ baseTime inputs.init.timestamp ∨
          conf.delay.amount = 1 ∨ conf.delay.interval ≤ conf.delayTimeLength ∨
          conf.firstDelay inputs.nowTime + conf.period .delay + conf.lag ∉
            threadTicks conf inputs)) ∨
      ∀ t ∈ threadTicks conf inputs, t = conf.firstDelay inputs.nowTime := by
  constructor
  · intro h
    by_cases hall : ∀ kind : RecordKind, kind.Enabled conf
    · exact Or.inl ⟨hall, (resentOnce_of_enabled hinterval hamount hlength honly
        (hall .statistics)).mp (h .statistics)⟩
    · obtain ⟨kind, hdisabled⟩ := not_forall.mp hall
      exact Or.inr (only_first_of_disabled hinterval hamount honly hdisabled (h kind))
  · rintro (⟨hall, hcondition⟩ | hfirst) kind
    · exact (resentOnce_of_enabled hinterval hamount hlength honly (hall kind)).mpr hcondition
    · exact resentOnce_of_only_first hinterval hamount hlength honly hfirst

/-- One instrument, two ticks of which are to be delayed. -/
def delayConf (interval timeLength : Int) : Conf where
  instrumentAmount := 1
  messageType := 3
  enableNoise := false
  feedCodeStartId := 1000
  timeLength := 10
  drop := ⟨1001, 1, 1, 1⟩
  delay := ⟨1000, 1, 2, interval⟩
  delayTimeLength := timeLength
  errorTurnover := ⟨1003, 1, 1, 1⟩
  errorBidAsk := ⟨1004, 1, 1, 1⟩
  errorPrice := ⟨1005, 1, 1, 1⟩
  errorVolume := ⟨1006, 1, 1, 1⟩

theorem delayConf_onlyIn (interval timeLength : Int) :
    OnlyIn (delayConf interval timeLength) 0 .delay := by
  intro other
  cases other <;> simp [Conf.fault, delayConf, inRange]

/-- The clock over five and a half seconds. -/
def fiveSeconds : ThreadInputs :=
  clockInputs [600, 1100, 1600, 2100, 2600, 3100, 3600, 4100, 4600, 5100, 5200]

/-- Feeds are kept for the interval, so the next one is withheld before the
queue is emptied. -/
theorem delayed_resent_once_long_delay :
    OnlyIn (delayConf 1 1) 0 .delay ∧
    ∀ kind, ResentOnce (delayConf 1 1) kind
      (threadLog (delayConf 1 1) (fun _ => []) 0 fiveSeconds) :=
  ⟨delayConf_onlyIn 1 1, (delayed_resent_once_iff (fun _ => []) (by decide) (by decide) (by decide)
    (delayConf_onlyIn 1 1)).mpr
    (Or.inl ⟨fun kind => by cases kind <;> decide, Or.inr (Or.inr (Or.inl le_rfl))⟩)⟩

/-- Every two seconds a tick is to be delayed by one second. The second one is
withheld, the tick of its resending is generated, and its lines are never
written. -/
theorem second_delayed_tick_lost :
    OnlyIn (delayConf 2 1) 0 .delay ∧
    (∃ feed ∈ sentFeeds (threadLog (delayConf 2 1) (fun _ => []) 0 fiveSeconds),
      feed.Faulty (delayConf 2 1) .delay ∧ feed.timestamp = 4000000000) ∧
    4000000000 + (delayConf 2 1).lag ∈ threadTicks (delayConf 2 1) fiveSeconds ∧
    ∀ kind, writtenIn (threadLog (delayConf 2 1) (fun _ => []) 0 fiveSeconds) kind
      4000000000 = [] := by
  refine ⟨delayConf_onlyIn 2 1, ?_, ?_, ?_⟩
  · decide +kernel
  · decide +kernel
  · intro kind
    cases kind <;> decide +kernel

end OLog.Generator
