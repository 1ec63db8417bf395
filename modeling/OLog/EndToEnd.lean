import OLog.Gaps
import OLog.Observed

/-!
Script, collector and monitor together. The script notes in a log of its own
which records it has dropped, delayed or falsified; what the monitor publishes
is compared with these notes, instrument by instrument. The clock, the draws,
the noise, the order in which the logs of the instruments arrive and the order
in which the monitor's threads take their steps are arbitrary.
-/

namespace OLog

open Lib Generator

theorem logText_eq_empty_iff (pf : PriceFeed) : ValidityProcessor.logText pf = "" ↔
    ¬ ValidityProcessor.invalidPrice pf ∧ ¬ ValidityProcessor.invalidVolume pf := by
  unfold ValidityProcessor.logText
  split_ifs with hprice hvolume hvolume <;> simp [hprice, hvolume]

section Reports

variable {conf : Conf} {id : Int} {code : String} {feed other : Generator.Feed}

theorem statisticsReport_timestamp (conf : Conf) (feed : Generator.Feed) :
    (feed.statisticsReport conf).exchangeTimestamp = feed.timestamp := by
  unfold Feed.statisticsReport
  split_ifs <;> rfl

theorem statisticsReport_feedcode (conf : Conf) (h : feed.Sent id code) :
    (feed.statisticsReport conf).feedcode = code := by
  rw [← h.labelled.statistics]
  unfold Feed.statisticsReport
  split_ifs <;> rfl

theorem priceReport_timestamp (conf : Conf) (h : feed.Sent id code) :
    (feed.priceReport conf).exchangeTimestamp = feed.timestamp := by
  rw [← h.same]
  unfold Feed.priceReport
  dsimp only
  split_ifs <;> rfl

theorem priceReport_feedcode (conf : Conf) (h : feed.Sent id code) :
    (feed.priceReport conf).feedcode = code := by
  rw [← h.labelled.price]
  unfold Feed.priceReport
  dsimp only
  split_ifs <;> rfl

theorem sixDecimals_ge {n : Nat} {q : Rat} (h : n ≤ q) : n ≤ sixDecimals q := by
  have hround := sixDecimals_mono (by positivity) h
  rwa [sixDecimals_natCast] at hround

/-- A turnover is found invalid exactly if it was falsified. Its alert does not
say which tick it is about. -/
theorem invalidAlerts_report (h : feed.Sent id code) :
    Tracker.invalidAlerts (feed.statisticsReport conf) =
      if feed.Faulty conf .errorTurnover then [.invalidTurnover code 0 0 0] else [] := by
  have hcode := h.labelled.statistics
  by_cases hfaulty : feed.Faulty conf .errorTurnover
  · have hzero : sixDecimals 0 = 0 := by simpa using sixDecimals_natCast 0
    simp [Tracker.invalidAlerts, Feed.statisticsReport, hfaulty, printedStatistics, hcode, hzero]
  · have hvalue : (900 : Nat) ≤ sixDecimals feed.statisticsFeed.turnoverValue :=
      sixDecimals_ge h.turnover
    have hpositive : ¬ sixDecimals feed.statisticsFeed.turnoverValue ≤ 0 := by
      push_cast at hvalue
      linarith
    simp [Tracker.invalidAlerts, Feed.statisticsReport, hfaulty, printedStatistics, hpositive,
      h.traded]

theorem turnover_report_le (hfeed : ¬ feed.Faulty conf .errorTurnover)
    (hother : ¬ other.Faulty conf .errorTurnover) (h : feed.Sent id code)
    (hprecedes : feed.Precedes other) :
    (feed.statisticsReport conf).turnover ≤ (other.statisticsReport conf).turnover := by
  have hvalue : 0 ≤ feed.statisticsFeed.turnoverValue := by linarith [h.turnover]
  unfold Feed.statisticsReport
  rw [if_neg hfeed, if_neg hother]
  exact ⟨sixDecimals_mono hvalue hprecedes.value.le, hprecedes.volume.le⟩

/-- A Price record is found invalid exactly if it is suspect. -/
theorem logText_report (conf : Conf) (h : feed.Sent id code) :
    ValidityProcessor.logText (feed.priceReport conf) = "" ↔ ¬ feed.Suspect conf := by
  have hlow : (900 : Nat) ≤ feed.priceFeed.bidPrice := by
    have := h.limits.1.trans h.quoted.bid
    exact_mod_cast this
  have hhigh : feed.priceFeed.askPrice ≤ (9900 : Nat) := by
    have := h.quoted.ask.trans h.limits.2
    exact_mod_cast this
  have hbid := sixDecimals_ge hlow
  have hspread : sixDecimals feed.priceFeed.bidPrice ≤ sixDecimals feed.priceFeed.askPrice :=
    sixDecimals_mono (by push_cast at hlow; linarith) h.quoted.spread
  have hask : sixDecimals feed.priceFeed.askPrice ≤ (9900 : Nat) := by
    have hround := sixDecimals_mono (by push_cast at hlow; linarith [h.quoted.spread]) hhigh
    rwa [sixDecimals_natCast] at hround
  push_cast at hbid hask
  obtain ⟨hbidLo, hbidHi⟩ := h.bidVolume
  obtain ⟨haskLo, haskHi⟩ := h.askVolume
  have hzero : sixDecimals 0 = 0 := by simpa using sixDecimals_natCast 0
  rw [logText_eq_empty_iff, ← not_or, not_iff_not]
  unfold Feed.priceReport Feed.Suspect
  by_cases h₁ : feed.Faulty conf .errorBidAsk
  · simp [h₁, printedPrice, ValidityProcessor.invalidPrice, hspread]
  by_cases h₂ : feed.Faulty conf .errorPrice
  · simp [h₁, h₂, printedPrice, ValidityProcessor.invalidPrice, hzero]
  by_cases h₃ : feed.Faulty conf .errorVolume
  · have hpositive : 0 < feed.priceFeed.bidVolume := by omega
    simp [h₁, h₂, h₃, printedPrice, ValidityProcessor.invalidVolume, hpositive]
  · simp only [h₁, h₂, h₃, if_false, false_or, printedPrice, ValidityProcessor.invalidPrice,
      ValidityProcessor.invalidVolume, ValidityProcessor.limit]
    push_cast
    constructor
    · rintro ((hcrossed | hrange | hrange | hrange | hrange) | hvolume)
      · exact le_antisymm hspread hcrossed
      all_goals
        exfalso
        first | linarith | omega
    · exact fun heq => Or.inl (Or.inl heq.ge)

end Reports

/-- The tick that a validity alert about the feedcode names. -/
def Alert.judged? (code : String) : Alert → Option Int
  | .validity feedcode exchangeTimestamp .. =>
      if feedcode = code then some exchangeTimestamp else none
  | _ => none

theorem judged?_priceAlerts (code : String) (feed : Feed) :
    feed.priceAlerts.filterMap (Alert.judged? code) =
      match feed with
      | .statistics _ => []
      | .price pf => if pf.feedcode = code ∧ ValidityProcessor.logText pf ≠ "" then
          [pf.exchangeTimestamp] else [] := by
  cases feed with
  | statistics sf => rfl
  | price pf =>
      by_cases hlog : ValidityProcessor.logText pf = ""
      · simp [Feed.priceAlerts, hlog]
      · by_cases hcode : pf.feedcode = code
        · simp [Feed.priceAlerts, hlog, Alert.judged?, hcode]
        · simp [Feed.priceAlerts, hlog, Alert.judged?, hcode]

/-- The validity alerts about an instrument come from its own feeds alone. -/
theorem watch_judged (feeds : List Feed) (code : String) :
    (Monitor.watch feeds).2.filterMap (Alert.judged? code) =
      (feeds.filter (fun feed => feed.feedcode = code)).flatMap (fun feed =>
        feed.priceAlerts.filterMap (Alert.judged? code)) := by
  have hvalidity : (Monitor.watch feeds).2.filterMap (Alert.judged? code) =
      ((Monitor.watch feeds).2.filter Alert.isValidity).filterMap (Alert.judged? code) := by
    rw [List.filterMap_filter]
    apply List.filterMap_congr
    intro alert _
    cases alert <;> rfl
  rw [hvalidity, Monitor.watch_prices, List.filterMap_flatMap]
  clear hvalidity
  induction feeds with
  | nil => rfl
  | cons feed feeds ih =>
      by_cases hcode : feed.feedcode = code
      · rw [List.filter_cons_of_pos (by simpa using hcode), List.flatMap_cons, List.flatMap_cons,
          ih]
      · have hnone : feed.priceAlerts.filterMap (Alert.judged? code) = [] := by
          rw [judged?_priceAlerts]
          cases feed with
          | statistics sf => rfl
          | price pf => exact if_neg (fun hboth => hcode hboth.1)
        rw [List.filter_cons_of_neg (by simpa using hcode), List.flatMap_cons, hnone, ih,
          List.nil_append]

section Undelayed

variable {conf : Conf} {i : Nat} (hspared : Spared conf i .delay) (words : String → List Sample)
  {inputs : ThreadInputs} (hunit : inputs.Unit)

include hspared hunit

/-- The Statistics feeds in the log: those of the ticks that were not dropped. -/
theorem statisticsAmong_thread :
    statisticsAmong (feedcodeOf conf i) (thread conf words i inputs).writtenFeeds =
      ((sentFeeds (threadLog conf words i inputs)).filter (fun feed =>
        RecordKind.statistics.Enabled conf ∧ ¬ feed.Faulty conf .drop)).map
          (Feed.statisticsReport conf) := by
  have hsent := (threadLog_succeeds conf words i hunit).2
  rw [writtenFeeds_thread hspared, statisticsAmong, List.filterMap_flatMap, ← flatMap_ite]
  apply List.flatMap_congr
  intro feed hfeed
  have hdelay := hspared.not_faulty (hsent feed hfeed).id
  have hcode := statisticsReport_feedcode conf (hsent feed hfeed)
  have hprice : (feed.reports conf .price).filterMap (Feed.statisticsOf? (feedcodeOf conf i)) =
      [] := by
    unfold Feed.reports
    split_ifs <;> rfl
  have hprompt : feed.Prompt conf ↔ ¬ feed.Faulty conf .drop := and_iff_left hdelay
  rw [List.filterMap_append, hprice, List.append_nil, Feed.reports]
  simp only [hprompt]
  split_ifs with hwritten
  · exact List.filterMap_cons_some (if_pos hcode)
  · rfl

/-- Nothing is left out of the log, so the tracker follows it tick by tick. -/
theorem consecutive_thread (hdrop : Spared conf i .drop) :
    (∀ tracker ∈ (Tracker.track (statisticsAmong (feedcodeOf conf i)
      (thread conf words i inputs).writtenFeeds)).1, tracker.waiting = 0) ∧
    (Tracker.track (statisticsAmong (feedcodeOf conf i)
      (thread conf words i inputs).writtenFeeds)).2 =
        ((thread conf words i inputs).markedTicks .errorTurnover .statistics).map
          (fun _ => .invalidTurnover (feedcodeOf conf i) 0 0 0) := by
  obtain ⟨hchain, hsent⟩ := threadLog_succeeds conf words i hunit
  let sent := sentFeeds (threadLog conf words i inputs)
  have hid : ∀ feed ∈ sent, feed.Prompt conf := fun feed hfeed =>
    ⟨hdrop.not_faulty (hsent feed hfeed).id, hspared.not_faulty (hsent feed hfeed).id⟩
  have hwritten : statisticsAmong (feedcodeOf conf i) (thread conf words i inputs).writtenFeeds =
      (sent.filter (fun _ => RecordKind.statistics.Enabled conf)).map
        (Feed.statisticsReport conf) := by
    rw [statisticsAmong_thread hspared words hunit]
    congr 1
    apply List.filter_congr
    intro feed hfeed
    simp [(hid feed hfeed).1]
  have hmarked : (thread conf words i inputs).markedTicks .errorTurnover .statistics =
      (sent.filter (fun feed => RecordKind.statistics.Enabled conf ∧
        feed.Faulty conf .errorTurnover)).map Feed.timestamp := by
    rw [markedTicks_thread hspared words inputs]
    congr 1
    apply List.filter_congr
    intro feed hfeed
    simp only [(hid feed hfeed).fault_eq_errorTurnover_iff]
  rw [hwritten, hmarked]
  by_cases henabled : RecordKind.statistics.Enabled conf
  · simp only [henabled, decide_true, List.filter_true, true_and]
    have hsteps : (sent.map (Feed.statisticsReport conf)).IsChain (fun f g =>
        g.exchangeTimestamp = f.exchangeTimestamp + interval) := by
      apply (List.isChain_map _).mpr
      apply hchain.imp
      intro feed other hsucceeds
      rw [statisticsReport_timestamp, statisticsReport_timestamp]
      exact hsucceeds.advances.timestamp
    have halerts : (sent.map (Feed.statisticsReport conf)).flatMap Tracker.invalidAlerts =
        ((sent.filter (fun feed => feed.Faulty conf .errorTurnover)).map Feed.timestamp).map
          (fun _ => .invalidTurnover (feedcodeOf conf i) 0 0 0) := by
      rw [List.map_map, List.flatMap_map]
      refine Eq.trans ?_ (flatMap_ite _ _ _)
      apply List.flatMap_congr
      intro feed hfeed
      exact invalidAlerts_report (hsent feed hfeed)
    rw [← halerts]
    cases hmap : sent.map (Feed.statisticsReport conf) with
    | nil => exact ⟨(fun _ hnone => nomatch hnone), rfl⟩
    | cons first rest =>
        rw [hmap] at hsteps
        obtain ⟨tracker, htrack, hwaiting, _, hall⟩ := Tracker.track_consecutive first hsteps
        refine ⟨?_, hall⟩
        rw [htrack]
        exact fun _ heq => Option.mem_some.mp heq ▸ hwaiting
  · simp [henabled, Tracker.track_nil]

end Undelayed

section Observed

variable {Value : Type} {reader : JsonReader Value} {beyond : Nat → Char} {conf : Conf}
  {words : String → List Sample} {inputs : Nat → ThreadInputs} {deliveries : List Delivery}
  {l : EventLoop}

/-- Of an instrument without dropped or delayed records the monitor says nothing
but one alert for each falsified turnover, and it holds nothing back. -/
theorem turnover_faults_reported (h : Observed reader beyond conf words inputs deliveries l)
    {i : Nat} (hi : i < conf.instrumentAmount) (hdrop : Spared conf i .drop)
    (hdelay : Spared conf i .delay) :
    l.produced.filter (Alert.follows (feedcodeOf conf i)) =
        ((thread conf words i (inputs i)).markedTicks .errorTurnover .statistics).map
          (fun _ => .invalidTurnover (feedcodeOf conf i) 0 0 0) ∧
      ∀ context ∈ l.contextMap.getContext (feedcodeOf conf i), context.queue.toList = [] := by
  obtain ⟨hwaiting, halerts⟩ := consecutive_thread hdelay words (h.unit i hi) hdrop
  constructor
  · rw [← halerts]
    apply h.follows_eq hi
    rw [halerts]
    intro alert halert
    obtain ⟨_, _, rfl⟩ := List.mem_map.mp halert
    rfl
  · intro context hcontext
    have htracker := h.tracker hi
    rw [Option.mem_def.mp hcontext] at htracker
    have hnone : context.view.waiting = 0 := hwaiting _ htracker.symm
    exact List.map_eq_nil_iff.mp (Multiset.coe_eq_zero _ |>.mp hnone)

/-- Two turnovers are falsified, the one a second after the other. -/
def turnoverConf : Conf := {steadyConf with errorTurnover := ⟨1000, 1, 2, 1⟩}

theorem turnover_faults_reported_steady :
    ∃ deliveries l, Observed textReader (fun _ => ' ') turnoverConf (fun _ => [])
        (fun _ => steadyInputs 6) deliveries l ∧
      l.produced.filter (Alert.follows "rb1000") =
        [.invalidTurnover "rb1000" 0 0 0, .invalidTurnover "rb1000" 0 0 0] := by
  obtain ⟨deliveries, l, h⟩ := exists_observed_single turnoverConf (fun _ => []) rfl
    (steadyInputs_unit 6) (steadyInputs_timely (by decide)) (fun _ => ' ')
  refine ⟨deliveries, l, h, ?_⟩
  have hreported := (turnover_faults_reported h Nat.one_pos (by decide) (by decide)).1
  have hcode : feedcodeOf turnoverConf 0 = "rb1000" := by decide +kernel
  have hmarked : (thread turnoverConf (fun _ => []) 0 (steadyInputs 6)).markedTicks
      .errorTurnover .statistics = [1600000001000000000, 1600000002000000000] := by
    decide +kernel
  rw [hcode, hmarked] at hreported
  exact hreported

/-- The validity alerts about an instrument without delays name, in order, the
ticks whose Price records were falsified and not dropped, and besides only those
where bid and ask price are printed alike. -/
theorem price_faults_reported (h : Observed reader beyond conf words inputs deliveries l)
    {i : Nat} (hi : i < conf.instrumentAmount) (hdelay : Spared conf i .delay) :
    l.produced.filterMap (Alert.judged? (feedcodeOf conf i)) =
      ((sentFeeds (threadLog conf words i (inputs i))).filter (fun feed =>
        RecordKind.price.Enabled conf ∧ ¬ feed.Faulty conf .drop ∧ feed.Suspect conf)).map
          Generator.Feed.timestamp := by
  have hsent := (threadLog_succeeds conf words i (h.unit i hi)).2
  rw [h.produced, watch_judged, h.arrives.feeds h.assumed hi, writtenFeeds_thread hdelay,
    List.flatMap_assoc, ← flatMap_ite]
  apply List.flatMap_congr
  intro feed hfeed
  have hprompt : feed.Prompt conf ↔ ¬ feed.Faulty conf .drop :=
    and_iff_left (hdelay.not_faulty (hsent feed hfeed).id)
  have hprice := judged?_priceAlerts (feedcodeOf conf i) (feed.report conf .price)
  simp only [Feed.report, priceReport_feedcode conf (hsent feed hfeed), true_and,
    priceReport_timestamp conf (hsent feed hfeed), ne_eq, logText_report conf (hsent feed hfeed),
    not_not] at hprice
  have hstatistics : (feed.reports conf .statistics).flatMap (fun report =>
      report.priceAlerts.filterMap (Alert.judged? (feedcodeOf conf i))) = [] := by
    unfold Feed.reports
    split_ifs <;> rfl
  rw [List.flatMap_append, hstatistics, List.nil_append, Feed.reports]
  simp only [hprompt]
  by_cases hwritten : RecordKind.price.Enabled conf ∧ ¬ feed.Faulty conf .drop
  · rw [if_pos hwritten, List.flatMap_singleton]
    refine hprice.trans ?_
    simp only [hwritten, not_false_eq_true, true_and]
  · rw [if_neg hwritten, if_neg (fun hall => hwritten ⟨hall.1, hall.2.1⟩)]
    rfl

/-- Two seconds after the start a price is falsified. -/
def priceConf : Conf := {steadyConf with errorPrice := ⟨1000, 1, 1, 2⟩}

theorem price_faults_reported_steady :
    ∃ deliveries l, Observed textReader (fun _ => ' ') priceConf (fun _ => [])
        (fun _ => steadyInputs 6) deliveries l ∧
      l.produced.filterMap (Alert.judged? "rb1000") = [1600000002000000000] := by
  obtain ⟨deliveries, l, h⟩ := exists_observed_single priceConf (fun _ => []) rfl
    (steadyInputs_unit 6) (steadyInputs_timely (by decide)) (fun _ => ' ')
  refine ⟨deliveries, l, h, ?_⟩
  have hreported := price_faults_reported h Nat.one_pos (by decide)
  have hcode : feedcodeOf priceConf 0 = "rb1000" := by decide +kernel
  have hsuspect : ((sentFeeds (threadLog priceConf (fun _ => []) 0 (steadyInputs 6))).filter
      (fun feed => RecordKind.price.Enabled priceConf ∧ ¬ feed.Faulty priceConf .drop ∧
        feed.Suspect priceConf)).map Generator.Feed.timestamp = [1600000002000000000] := by
    decide +kernel
  rw [hcode, hsuspect] at hreported
  exact hreported

end Observed

end OLog
