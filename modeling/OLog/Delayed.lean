import OLog.Dropped
import OLog.Lib.LineOutput
import OLog.Resend

/-!
Ticks whose records are delayed. They come back out of order, behind the record
of the tick at which they are resent. If that is at most sixty seconds later,
the monitor's queue bridges the gap and not a word is said. If it is much later,
each delayed tick is first reported as missed and then, when it comes, as late.
-/

namespace OLog

open Lib Generator

namespace Generator

section Ticks

variable {conf : Conf} {log : List PassLog} {kind : RecordKind}

/-- The records of a run, in the order in which they were written. -/
theorem flatMap_lineEntries (conf : Conf)
    (hidle : ∀ entry ∈ log, entry.sent = none → entry.records kind = []) :
    (lineEntries conf kind log).flatMap DelayLine.Entry.sent =
      log.flatMap (PassLog.records kind) := by
  induction log with
  | nil => rfl
  | cons entry log ih =>
      obtain ⟨hentry, hlog⟩ := List.forall_mem_cons.mp hidle
      have hrest := ih hlog
      unfold lineEntries at hrest ⊢
      rw [List.flatMap_cons, ← hrest]
      cases hsent : entry.sent with
      | none =>
          rw [List.filterMap_cons_none (by simp [PassLog.lineEntry, hsent]), hentry hsent,
            List.nil_append]
      | some feed =>
          have hline : PassLog.lineEntry conf kind entry =
              some ⟨feed.timestamp, decide (feed.Faulty conf .delay), entry.records kind⟩ := by
            rw [PassLog.lineEntry, hsent]
            rfl
          rw [List.filterMap_cons_some hline, List.flatMap_cons]

end Ticks

/-- Of the feeds that the monitor gets, the Statistics feeds have the ticks of the
Statistics records. -/
theorem map_statisticsAmong (conf : Conf) (words : String → List Sample) (i : Nat)
    (inputs : ThreadInputs) :
    (statisticsAmong (feedcodeOf conf i) (thread conf words i inputs).writtenFeeds).map
        StatisticsFeed.exchangeTimestamp =
      (threadLog conf words i inputs).flatMap (PassLog.records .statistics) := by
  have hexpected := (thread_labelled conf words i inputs).writes
  have hrecords : (threadLog conf words i inputs).flatMap (PassLog.records .statistics) =
      (thread conf words i inputs).writes.filterMap (recordTick? .statistics) := by
    rw [thread_writes, List.filterMap_flatMap]
    rfl
  rw [hrecords, statisticsAmong, ThreadState.writtenFeeds, List.filterMap_filterMap,
    List.map_filterMap]
  apply List.filterMap_congr
  rintro ⟨file, line⟩ hw
  have hlabel := hexpected _ hw
  cases file with
  | error => cases line <;> rfl
  | own =>
      cases line with
      | record r =>
          cases r with
          | statistics timestamp sf =>
              have hcode : sf.feedcode = feedcodeOf conf i := hlabel.2.1
              have hread : Feed.statisticsOf? (feedcodeOf conf i)
                  (Record.written (.statistics timestamp sf)) = some (printedStatistics sf) :=
                if_pos hcode
              simp only [Write.feed?, Option.bind_some, hread]
              rfl
          | price timestamp pf => rfl
      | _ => rfl

section Line

variable {conf : Conf} {i : Nat} (words : String → List Sample) {inputs : ThreadInputs}
  (hinterval : 0 < conf.delay.interval) (hamount : 0 < conf.delay.amount)
  (hlength : 0 < conf.delayTimeLength) (hclock : inputs.init.timestamp ≤ inputs.nowTime)

include hclock in
theorem delayLine_regular :
    (conf.delayLine inputs.nowTime hinterval hamount hlength).Regular 500000000
      (baseTime inputs.init.timestamp) := by
  refine ⟨by decide, trigger_onGrid conf inputs.nowTime inputs.init.timestamp .delay hinterval,
    ?_, ?_, ?_⟩
  · change 500000000 ∣ conf.delayTimeLength * 1000000000
    omega
  · change baseTime inputs.init.timestamp <
      baseTime inputs.nowTime + conf.delay.interval * 1000000000
    unfold baseTime
    omega
  · change 500000000 < conf.delay.interval * 1000000000
    omega

include hclock in
/-- The first tick is before the first one to be delayed. -/
theorem delayLine_free : ¬ (conf.delayLine inputs.nowTime hinterval hamount
    hlength).trigger.Fires (baseTime inputs.init.timestamp + interval) := by
  let line := conf.delayLine inputs.nowTime hinterval hamount hlength
  intro hfires
  obtain ⟨k, hk, _, hu⟩ := hfires
  have hfirst : line.trigger.time 0 ≤ line.trigger.time k := Periodic.time_le_iff.mpr hk
  have hinit : baseTime inputs.init.timestamp ≤ baseTime inputs.nowTime := by
    unfold baseTime
    omega
  have hzero : line.trigger.time 0 =
      baseTime inputs.nowTime + conf.delay.interval * 1000000000 := Periodic.time_zero
  have hstep : interval = 500000000 := rfl
  change baseTime inputs.init.timestamp + interval = line.trigger.time k at hu
  omega

include hclock in
/-- The Statistics feeds come in the order in which the delay line puts them out. -/
theorem written_output (honly : OnlyIn conf i .delay)
    (henabled : RecordKind.statistics.Enabled conf) :
    (statisticsAmong (feedcodeOf conf i) (thread conf words i inputs).writtenFeeds).map
        StatisticsFeed.exchangeTimestamp =
      (conf.delayLine inputs.nowTime hinterval hamount hlength).output
        (threadTicks conf inputs) := by
  have hregular := delayLine_regular hinterval hamount hlength hclock
  have hsimulates := threadStart_simulates inputs hinterval hamount hlength honly
  have hentries : lineEntries conf .statistics (threadLog conf words i inputs) =
      (conf.delayLine inputs.nowTime hinterval hamount hlength).run (threadTicks conf inputs)
        (conf.delayLine inputs.nowTime hinterval hamount hlength).start :=
    hsimulates.loopLog hinterval henabled _ _ _ _
  obtain ⟨n, hn⟩ := threadTicks_eq conf inputs
  rw [hn, DelayLine.run_eq hregular.step_pos hregular.grid
    (DelayLine.timers_onGrid hregular.grid hregular.lag) (DelayLine.start_inv hregular.ahead)]
    at hentries
  rw [map_statisticsAmong, ← flatMap_lineEntries conf threadLog_idle_records, hentries, hn,
    List.flatMap_map]
  rfl

end Line

theorem OnlyIn.spared {conf : Conf} {i : Nat} {mark other : Mark} (h : OnlyIn conf i mark)
    (hne : other ≠ mark) : Spared conf i other :=
  fun hrange => hne ((h other).mp hrange)

/-- Every Statistics feed in the log is that of a feed that was sent. -/
theorem statistics_sent {conf : Conf} {i : Nat} (honly : OnlyIn conf i .delay)
    (words : String → List Sample) {inputs : ThreadInputs} (hunit : inputs.Unit)
    {sf : StatisticsFeed}
    (hsf : sf ∈ statisticsAmong (feedcodeOf conf i) (thread conf words i inputs).writtenFeeds) :
    ∃ feed ∈ sentFeeds (threadLog conf words i inputs), feed.statisticsReport conf = sf := by
  have hmem : .statistics sf ∈ (thread conf words i inputs).writtenFeeds := by
    obtain ⟨feed, hfeed, hread⟩ := List.mem_filterMap.mp hsf
    cases feed with
    | statistics other =>
        simp only [Feed.statisticsOf?] at hread
        split_ifs at hread
        exact Option.some.inj hread ▸ hfeed
    | price pf => cases hread
  rw [ThreadState.writtenFeeds_eq] at hmem
  obtain ⟨r, hr, hread⟩ := List.mem_map.mp hmem
  obtain ⟨⟨file, line⟩, hw, hrecord⟩ := List.mem_filterMap.mp hr
  cases file <;> cases line <;> cases hrecord
  obtain ⟨_, _, feed, hfeed, written, halike, kind, time, _, rfl⟩ := record_sent hw
  rw [kind.written_result] at hread
  cases kind <;> cases hread
  refine ⟨feed, hfeed, ?_⟩
  have hid := ((threadLog_succeeds conf words i hunit).2 feed hfeed).id
  have hspared : Spared conf i .errorTurnover := honly.spared (by decide)
  unfold Feed.statisticsReport
  rw [if_neg (hspared.not_faulty hid), if_neg (hspared.not_faulty (halike.id.trans hid)),
    halike.statistics]

end Generator

theorem precedes_of_lt {conf : Conf} {sent : List Generator.Feed}
    (hchain : sent.IsChain (Feed.Succeeds conf)) {feed other : Generator.Feed}
    (hfeed : feed ∈ sent) (hother : other ∈ sent) (hlt : feed.timestamp < other.timestamp) :
    feed.Precedes other := by
  have hsorted := precedes_of_isChain hchain
  refine List.Pairwise.forall_of_forall_of_flip
    (R := fun a b => a.timestamp < b.timestamp → a.Precedes b) ?_ ?_ ?_ hfeed hother hlt
  · exact fun _ _ hself => absurd hself (lt_irrefl _)
  · apply hsorted.imp
    exact fun hab _ => hab
  · apply hsorted.imp
    exact fun hab hba => absurd hab.timestamp hba.asymm

namespace Tracker

section Output

variable {line : DelayLine} {t : Int} {n : Nat} {feeds : List StatisticsFeed}
  (hregular : line.Regular interval t)
  (hticks : feeds.map StatisticsFeed.exchangeTimestamp = line.output (pointsFrom interval t n))

include hregular hticks

theorem output_point {sf : StatisticsFeed} (hsf : sf ∈ feeds) :
    t < sf.exchangeTimestamp ∧ interval ∣ sf.exchangeTimestamp - t := by
  have hmem := List.mem_map_of_mem (f := StatisticsFeed.exchangeTimestamp) hsf
  rw [hticks, hregular.mem_output, mem_pointsFrom hregular.step_pos] at hmem
  exact ⟨hmem.1.1, hmem.1.2.2⟩

theorem output_distinct :
    feeds.Pairwise (fun f g => f.exchangeTimestamp ≠ g.exchangeTimestamp) := by
  have hnodup := hregular.output_nodup n
  rw [← hticks] at hnodup
  exact List.pairwise_map.mp hnodup

omit hregular in
theorem prefix_output {seen : List StatisticsFeed} (hseen : seen <+: feeds) :
    seen.map StatisticsFeed.exchangeTimestamp <+: line.output (pointsFrom interval t n) := by
  rw [← hticks]
  exact hseen.map _

end Output

section Bridged

variable {line : DelayLine} {t : Int} {n : Nat} {first : StatisticsFeed}
  {rest : List StatisticsFeed} (hregular : line.Regular interval t)
  (hall : ∀ u, line.trigger.Fires u → line.released.Fires u)
  (hticks : (first :: rest).map StatisticsFeed.exchangeTimestamp =
    line.output (pointsFrom interval t n))
  (hfirst : first.exchangeTimestamp = t + interval)

include hfirst

theorem tick_first (j : Nat) :
    t < tick first.exchangeTimestamp interval j ∧
      interval ∣ tick first.exchangeTimestamp interval j - t := by
  have hpos := interval_pos
  have htick : tick first.exchangeTimestamp interval j - t = (j + 1) * interval := by
    rw [hfirst, tick, nsmul_eq_mul]
    ring
  have hlow : 0 < ((j : Int) + 1) * interval := by positivity
  exact ⟨by omega, htick ▸ Dvd.intro_left _ rfl⟩

include hregular hticks

theorem output_onGrid {sf : StatisticsFeed} (hsf : sf ∈ first :: rest) :
    OnGrid first.exchangeTimestamp sf := by
  have hpos := interval_pos
  obtain ⟨hlt, k, hk⟩ := output_point hregular hticks hsf
  have hk_pos : 0 < k := by
    by_contra hle
    have := mul_nonpos_of_nonneg_of_nonpos hpos.le (not_lt.mp hle)
    omega
  refine ⟨(k - 1).toNat, ?_⟩
  have hcast : (((k - 1).toNat : Nat) : Int) = k - 1 := by omega
  rw [hfirst, tick, nsmul_eq_mul, hcast]
  linarith

include hall

/-- A tick that is not there yet is waited for, since the line gives it back in
time. -/
theorem tolerable_output (hlag : line.lag ≤ queueLimit * interval)
    {seen : List StatisticsFeed} (hseen : seen <+: first :: rest) :
    Tolerable first.exchangeTimestamp seen := by
  intro j hmissing
  obtain ⟨hlt, hdvd⟩ := tick_first hfirst j
  have hcount := hregular.overtaken_le hall hlag (prefix_output hticks hseen) hlt hdvd (by
    rw [List.mem_map]
    rintro ⟨f, hf, heq⟩
    exact hmissing f hf heq)
  rw [List.countP_map] at hcount
  exact hcount

theorem orderly_output (hordered : ∀ f ∈ first :: rest, ∀ g ∈ first :: rest,
    f.exchangeTimestamp < g.exchangeTimestamp → f.turnover ≤ g.turnover) :
    Orderly (first :: rest) := by
  intro first' rest' sf hprefix
  obtain ⟨rfl, hrest⟩ : first' = first ∧ rest' ++ [sf] <+: rest := List.cons_prefix_cons.mp hprefix
  have hseen : ∀ f ∈ first' :: rest', f ∈ first' :: rest := fun f hf =>
    hprefix.subset (List.mem_append_left _ hf)
  have hsf : sf ∈ first' :: rest := hprefix.subset (List.mem_append_right _ List.mem_cons_self)
  have hfront := prefix_output hticks hprefix
  rw [List.map_append, List.map_singleton] at hfront
  rcases hregular.newest_or_fills hall hfront with hnewest | ⟨hfills, hends⟩
  · left
    intro f hf
    have hlt := hnewest _ (List.mem_map_of_mem hf)
    exact ⟨hlt, hordered f (hseen f hf) sf hsf hlt⟩
  · right
    refine ⟨⟨output_onGrid hregular hticks hfirst hsf, ?_⟩, ?_⟩
    · intro j hj
      obtain ⟨hlt, hdvd⟩ := tick_first hfirst j
      exact List.mem_map.mp (hfills _ hlt hdvd hj)
    · intro before last heq f hf
      have hlast : last ∈ first' :: rest' := heq ▸ List.mem_append_right _ List.mem_cons_self
      have hlt := hends (before.map StatisticsFeed.exchangeTimestamp) last.exchangeTimestamp
        (by rw [heq, List.map_append]; rfl) _ (List.mem_map_of_mem hf)
      exact ⟨hlt, hordered f (hseen f (heq ▸ List.mem_append_left _ hf)) last
        (hseen last hlast) hlt⟩

end Bridged

/-- Not a word about a log whose gaps are all filled within the queue's length. -/
theorem track_bridged {line : DelayLine} {t : Int} {n : Nat} {feeds : List StatisticsFeed}
    (hregular : line.Regular interval t)
    (hall : ∀ u, line.trigger.Fires u → line.released.Fires u)
    (hlag : line.lag ≤ queueLimit * interval) (hfree : ¬ line.trigger.Fires (t + interval))
    (hticks : feeds.map StatisticsFeed.exchangeTimestamp = line.output (pointsFrom interval t n))
    (hordered : ∀ f ∈ feeds, ∀ g ∈ feeds,
      f.exchangeTimestamp < g.exchangeTimestamp → f.turnover ≤ g.turnover)
    (hvalid : ∀ sf ∈ feeds, invalidAlerts sf = []) :
    (track feeds).2 = [] := by
  cases feeds with
  | nil => rfl
  | cons first rest =>
      have hfirst : first.exchangeTimestamp = t + interval :=
        DelayLine.output_head hfree hticks.symm
      have hpositive := turnover_pos (hvalid first List.mem_cons_self)
      have hdistinct := output_distinct hregular hticks
      have hgrid : ∀ sf ∈ rest, OnGrid first.exchangeTimestamp sf := fun sf hsf =>
        output_onGrid hregular hticks hfirst (List.mem_cons_of_mem _ hsf)
      have hmiss := (missTicks_nil_iff first rest).mpr
        (fun _ hseen => tolerable_output hregular hall hticks hfirst hlag hseen)
      have hquiet := (quiet_of_orderly hpositive.1 hpositive.2 hmiss hdistinct hgrid
        (orderly_output hregular hall hticks hfirst hordered)).1
      rw [track_calm hquiet hmiss (no_delay_of_no_miss hmiss hdistinct hgrid)]
      exact List.flatMap_eq_nil_iff.mpr hvalid

end Tracker

section Delayed

variable {conf : Conf} {i : Nat} (words : String → List Sample) {inputs : ThreadInputs}
  (hunit : inputs.Unit) (honly : OnlyIn conf i .delay)

include hunit honly

theorem statistics_valid : ∀ sf ∈ statisticsAmong (feedcodeOf conf i)
    (thread conf words i inputs).writtenFeeds, Tracker.invalidAlerts sf = [] := by
  intro sf hsf
  obtain ⟨feed, hfeed, rfl⟩ := statistics_sent honly words hunit hsf
  have hsent := (threadLog_succeeds conf words i hunit).2 feed hfeed
  have hspared : Spared conf i .errorTurnover := honly.spared nofun
  rw [invalidAlerts_report hsent, if_neg (hspared.not_faulty hsent.id)]

/-- In whatever order they come: a later tick has no less turnover. -/
theorem statistics_ordered : ∀ f ∈ statisticsAmong (feedcodeOf conf i)
    (thread conf words i inputs).writtenFeeds, ∀ g ∈ statisticsAmong (feedcodeOf conf i)
      (thread conf words i inputs).writtenFeeds,
        f.exchangeTimestamp < g.exchangeTimestamp → f.turnover ≤ g.turnover := by
  obtain ⟨hchain, hsent⟩ := threadLog_succeeds conf words i hunit
  intro f hf g hg hlt
  obtain ⟨feed, hfeed, rfl⟩ := statistics_sent honly words hunit hf
  obtain ⟨other, hother, rfl⟩ := statistics_sent honly words hunit hg
  rw [statisticsReport_timestamp, statisticsReport_timestamp] at hlt
  have hspared : Spared conf i .errorTurnover := honly.spared nofun
  exact turnover_report_le (hspared.not_faulty (hsent feed hfeed).id)
    (hspared.not_faulty (hsent other hother).id) (hsent feed hfeed)
    (precedes_of_lt hchain hfeed hother hlt)

/-- Nothing is said about delays of at most a minute. -/
theorem track_delayed (hinterval : 0 < conf.delay.interval) (hamount : 0 < conf.delay.amount)
    (hlength : 0 < conf.delayTimeLength) (hclock : inputs.init.timestamp ≤ inputs.nowTime)
    (hshort : conf.delayTimeLength ≤ 60)
    (hall : conf.delay.amount = 1 ∨ conf.delay.interval ≤ conf.delayTimeLength) :
    (Tracker.track (statisticsAmong (feedcodeOf conf i)
      (thread conf words i inputs).writtenFeeds)).2 = [] := by
  by_cases henabled : RecordKind.statistics.Enabled conf
  · let line := conf.delayLine inputs.nowTime hinterval hamount hlength
    have hregular : line.Regular interval (baseTime inputs.init.timestamp) :=
      delayLine_regular hinterval hamount hlength hclock
    obtain ⟨n, hn⟩ := threadTicks_eq conf inputs
    have hticks := written_output words hinterval hamount hlength hclock honly henabled
    rw [hn] at hticks
    refine Tracker.track_bridged hregular ?_ ?_ ?_ hticks
      (statistics_ordered words hunit honly) (statistics_valid words hunit honly)
    · -- nothing that is held is lost
      intro u hfires
      have hbudget : line.released.budget = line.trigger.budget := by
        refine if_pos (hall.imp (fun hone => ?_) (fun hlong => ?_))
        · change conf.delay.amount ≤ 1
          omega
        · change conf.delay.interval * 1000000000 ≤ conf.delayTimeLength * 1000000000
          omega
      obtain ⟨k, hk, hlt, hu⟩ := hfires
      exact ⟨k, hk, hbudget ▸ hlt, hu⟩
    · change conf.delayTimeLength * 1000000000 ≤ 120 * 500000000
      omega
    · exact delayLine_free hinterval hamount hlength hclock
  · have hnone : statisticsAmong (feedcodeOf conf i) (thread conf words i inputs).writtenFeeds =
        [] := by
      apply List.map_eq_nil_iff.mp ((map_statisticsAmong conf words i inputs).trans ?_)
      exact List.flatMap_eq_nil_iff.mpr (threadLog_disabled_records hinterval honly henabled)
    rw [hnone]
    rfl

end Delayed

section Observed

variable {Value : Type} {reader : JsonReader Value} {beyond : Nat → Char} {conf : Conf}
  {words : String → List Sample} {inputs : Nat → ThreadInputs} {deliveries : List Delivery}
  {l : EventLoop}

/-- Records that are delayed by at most a minute, and are all sent in the end,
give no alert: the monitor waits for them. -/
theorem delayed_ticks_tolerated (h : Observed reader beyond conf words inputs deliveries l)
    {i : Nat} (hi : i < conf.instrumentAmount) (honly : OnlyIn conf i .delay)
    (hinterval : 0 < conf.delay.interval) (hamount : 0 < conf.delay.amount)
    (hlength : 0 < conf.delayTimeLength) (hshort : conf.delayTimeLength ≤ 60)
    (hall : conf.delay.amount = 1 ∨ conf.delay.interval ≤ conf.delayTimeLength)
    (hclock : (inputs i).init.timestamp ≤ (inputs i).nowTime) :
    l.produced.filter (Alert.follows (feedcodeOf conf i)) = [] := by
  have halerts := track_delayed words (h.unit i hi) honly hinterval hamount hlength hclock hshort
    hall
  rw [h.follows_eq hi]
  · exact halerts
  · rw [halerts]
    exact List.forall_mem_nil _

/-- Every three seconds a tick is delayed by three seconds. -/
def shortDelayConf : Conf := {steadyConf with delay := ⟨1000, 1, 2, 3⟩, delayTimeLength := 3}

theorem shortDelayConf_onlyIn : OnlyIn shortDelayConf 0 .delay := by
  intro other
  cases other <;> decide

theorem delayed_ticks_tolerated_steady :
    ∃ deliveries l, Observed textReader (fun _ => ' ') shortDelayConf (fun _ => [])
        (fun _ => steadyInputs 20) deliveries l ∧
      (thread shortDelayConf (fun _ => []) 0 (steadyInputs 20)).markedTicks .delay .statistics =
        [1600000003000000000, 1600000006000000000] ∧
      l.produced.filter (Alert.follows "rb1000") = [] := by
  obtain ⟨deliveries, l, h⟩ := exists_observed_single shortDelayConf (fun _ => []) rfl
    (steadyInputs_unit 20) (steadyInputs_timely (by decide)) (fun _ => ' ')
  have hquiet := delayed_ticks_tolerated h Nat.one_pos shortDelayConf_onlyIn (by decide)
    (by decide) (by decide) (by decide) (by decide) (by decide)
  have hcode : feedcodeOf shortDelayConf 0 = "rb1000" := by decide +kernel
  rw [hcode] at hquiet
  exact ⟨deliveries, l, h, by decide +kernel, hquiet⟩

end Observed

end OLog
