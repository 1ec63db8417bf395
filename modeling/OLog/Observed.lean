import OLog.Pipeline
import OLog.Recorded

/-!
Complete runs of script, collector and monitor. What the monitor says about an
instrument depends on the records in the instrument's log alone. And there is a
complete run for whatever the script does, in whichever order its logs are read:
the collector's messages are JSON, and the monitor takes every one of them.
-/

namespace OLog

open Lib Generator

theorem statisticsAmong_filter (code : String) (feeds : List Feed) :
    statisticsAmong code (feeds.filter (fun feed => feed.feedcode = code)) =
      statisticsAmong code feeds := by
  unfold statisticsAmong
  rw [List.filterMap_filter]
  apply List.filterMap_congr
  intro feed _
  cases feed with
  | statistics sf =>
      by_cases hcode : sf.feedcode = code
      · simp [Feed.feedcode, hcode]
      · simp [Feed.feedcode, Feed.statisticsOf?, hcode]
  | price pf => simp [Feed.statisticsOf?]

/-- A complete run of script, collector and monitor. -/
structure Observed {Value : Type} (reader : JsonReader Value) (beyond : Nat → Char)
    (conf : Conf) (words : String → List Sample) (inputs : Nat → ThreadInputs)
    (deliveries : List Delivery) (l : EventLoop) : Prop where
  amount : conf.instrumentAmount ≤ 10 ^ 9
  unit : ∀ i < conf.instrumentAmount, (inputs i).Unit
  timely : ∀ i < conf.instrumentAmount, (inputs i).Timely
  arrives : Arrives reader beyond conf words inputs deliveries
  ran : EventLoop.Ran EventLoop.mainProcessors (deliveries.map Delivery.record) l
  done : l.pending = []

section Observed

variable {Value : Type} {reader : JsonReader Value} {beyond : Nat → Char} {conf : Conf}
  {words : String → List Sample} {inputs : Nat → ThreadInputs} {deliveries : List Delivery}
  {l : EventLoop} (h : Observed reader beyond conf words inputs deliveries l) {i : Nat}
  (hi : i < conf.instrumentAmount)

include h hi

omit hi in
theorem Observed.assumed : ∀ i < conf.instrumentAmount,
    ∀ w ∈ (thread conf words i (inputs i)).writes, w.line.Assumed := by
  intro i hi
  have hamount := h.amount
  exact assumed_thread words (by omega) (h.unit i hi) (h.timely i hi)

theorem Observed.statistics : statisticsAmong (feedcodeOf conf i) (arrivedFeeds deliveries) =
    statisticsAmong (feedcodeOf conf i) (thread conf words i (inputs i)).writtenFeeds := by
  rw [← h.arrives.feeds h.assumed hi, statisticsAmong_filter]

omit hi in
theorem Observed.produced : l.produced = (Monitor.watch (arrivedFeeds deliveries)).2 := by
  have hproduced := (h.ran.settled h.done).1
  rwa [List.filterMap_map] at hproduced

theorem Observed.tracker :
    (l.contextMap.getContext (feedcodeOf conf i)).map Context.view =
      (Tracker.track (statisticsAmong (feedcodeOf conf i)
        (thread conf words i (inputs i)).writtenFeeds)).1 := by
  have htrackers := (h.ran.settled h.done).2 (feedcodeOf conf i)
  rw [List.filterMap_map] at htrackers
  rw [htrackers, ← h.statistics hi]
  exact (Monitor.watch_follows _ _).1

/-- Where the tracker gives nothing but warnings, these are what is published. -/
theorem Observed.follows_eq
    (hall : ∀ alert ∈ (Tracker.track (statisticsAmong (feedcodeOf conf i)
      (thread conf words i (inputs i)).writtenFeeds)).2, alert.warns = true) :
    l.produced.filter (Alert.follows (feedcodeOf conf i)) =
      (Tracker.track (statisticsAmong (feedcodeOf conf i)
        (thread conf words i (inputs i)).writtenFeeds)).2 := by
  rw [← h.statistics hi] at hall ⊢
  rw [h.produced]
  exact Monitor.watch_follows_eq hall

end Observed

namespace Generator

theorem verbatim_intercalate {pieces : List String} (h : ∀ piece ∈ pieces, Json.Verbatim piece) :
    Json.Verbatim (String.ofList ([','].intercalate (pieces.map String.toList))) := by
  unfold Json.Verbatim
  rw [String.toList_ofList]
  induction pieces with
  | nil => exact List.forall_mem_nil _
  | cons piece pieces ih =>
      obtain ⟨hpiece, hpieces⟩ := List.forall_mem_cons.mp h
      obtain ⟨lead, hlead, htext⟩ :=
        intercalate_cons ',' piece.toList (pieces.map String.toList)
      have hcomma : ∀ c ∈ lead, Json.verbatim c = true := by
        rcases hlead with ⟨rfl, _⟩ | rfl
        · exact List.forall_mem_nil _
        · exact List.forall_mem_singleton.mpr rfl
      rw [List.map_cons, htext]
      exact List.forall_mem_append.mpr ⟨hpiece, List.forall_mem_append.mpr ⟨hcomma, ih hpieces⟩⟩

/-- Nothing in a record needs an escape. -/
theorem Record.Labelled.verbatim {conf : Conf} {i : Nat} {r : Record}
    (h : r.Labelled (feedcodeOf conf i)) :
    Json.Verbatim r.parts.1 ∧ Json.Verbatim r.parts.2 := by
  have hcode : Json.Verbatim (feedcodeOf conf i) :=
    (by decide : Json.Verbatim "rb").append (Json.verbatim_showInt _)
  have hclosing : Json.Verbatim closingPriceType := by decide
  cases r with
  | statistics timestamp sf =>
      refine ⟨(by decide : Json.Verbatim "LIMon_StatisticsFeed"), verbatim_intercalate ?_⟩
      simp [fields, statisticsFields, h.1, h.2, hcode, hclosing, Json.verbatim_showInt,
        Json.verbatim_showFixed]
  | price timestamp pf =>
      have hfeedcode : pf.feedcode = feedcodeOf conf i := h
      refine ⟨(by decide : Json.Verbatim "LIMon_PriceFeed"), verbatim_intercalate ?_⟩
      simp [fields, priceFields, hfeedcode, hcode, Json.verbatim_showInt, Json.verbatim_showFixed]

end Generator

/-- A line of an instrument's log, as it is consumed with the given offset. -/
def incomingOf (line : (Nat × Generator.Record) × Nat) : Incoming :=
  ⟨⟨"fluent-newData", 0, line.2⟩, line.1.2.written⟩

def deliver (line : (Nat × Generator.Record) × Nat) : Delivery :=
  ⟨(line.1.1, .own), payloadOf line.1.2.parts, (incomingOf line).record⟩

section Exists

variable {conf : Conf} {words : String → List Sample} {inputs : Nat → ThreadInputs}
  (beyond : Nat → Char) (hamount : conf.instrumentAmount ≤ 10 ^ 9)
  (hunit : ∀ i < conf.instrumentAmount, (inputs i).Unit)
  (htimely : ∀ i < conf.instrumentAmount, (inputs i).Timely)
  {lines : List (Nat × Generator.Record)}
  (hsource : ∀ line ∈ lines, line.1 < conf.instrumentAmount)
  (horder : ∀ i < conf.instrumentAmount, (lines.filter (fun line => line.1 = i)).map Prod.snd =
    (thread conf words i (inputs i)).records)

include hamount hunit htimely hsource horder

omit hamount hunit htimely in
theorem mem_records_of_line {line : Nat × Generator.Record} (hline : line ∈ lines) :
    line.2 ∈ (thread conf words line.1 (inputs line.1)).records := by
  rw [← horder line.1 (hsource line hline)]
  exact List.mem_map.mpr ⟨line, List.mem_filter.mpr ⟨hline, by simp⟩, rfl⟩

theorem arrives_deliver :
    Arrives textReader beyond conf words inputs (lines.zipIdx.map deliver) := by
  have hassumed : ∀ i < conf.instrumentAmount,
      ∀ w ∈ (thread conf words i (inputs i)).writes, w.line.Assumed :=
    fun i hi => assumed_thread words (by omega) (hunit i hi) (htimely i hi)
  refine ⟨?_, ?_, ?_⟩
  · intro d hd
    obtain ⟨⟨line, n⟩, hline, rfl⟩ := List.mem_map.mp hd
    exact hsource line (List.fst_mem_of_mem_zipIdx hline)
  · intro d hd feedAddr
    obtain ⟨⟨line, n⟩, hline, rfl⟩ := List.mem_map.mp hd
    have hmem := List.fst_mem_of_mem_zipIdx hline
    obtain ⟨hlabel, w, hw, hrecord⟩ := mem_records conf words line.1 (inputs line.1)
      (mem_records_of_line hsource horder hmem)
    have hgood := hassumed line.1 (hsource line hmem) w hw
    rw [hrecord] at hgood
    exact Generator.construct_record hlabel (plain_feedcodeOf conf line.1) hgood textReader beyond
      .garbage .none feedAddr _ (textReader_reads hlabel.verbatim.1 hlabel.verbatim.2)
  · intro i hi file
    rw [collected_thread (hassumed i hi), List.filter_map]
    cases file with
    | own =>
        have hnumbered : lines.filter (fun line => line.1 = i) =
            (lines.zipIdx.filter (fun line => line.1.1 = i)).map Prod.fst := by
          conv_lhs => rw [← List.zipIdx_map_fst 0 lines, List.filter_map]
          rfl
        have hown : ((fun d : Delivery => decide (d.source = (i, .own))) ∘ deliver) =
            fun line => decide (line.1.1 = i) := by
          funext line
          simp [deliver]
        rw [if_pos rfl, ← horder i hi, hnumbered, hown, List.map_map, List.map_map,
          List.forall₂_map_left_iff, List.forall₂_map_right_iff, List.forall₂_same]
        rintro ⟨line, n⟩ hline
        have hmem := List.fst_mem_of_mem_zipIdx (List.mem_of_mem_filter hline)
        obtain ⟨hlabel, -⟩ := mem_records conf words line.1 (inputs line.1)
          (mem_records_of_line hsource horder hmem)
        exact textReader_reads hlabel.verbatim.1 hlabel.verbatim.2
    | error =>
        have hnone : (lines.zipIdx.filter
            ((fun d : Delivery => decide (d.source = (i, .error))) ∘ deliver)) = [] := by
          apply List.filter_eq_nil_iff.mpr
          intro line _
          simp [deliver]
        rw [if_neg nofun, hnone]
        exact List.Forall₂.nil

/-- Whatever the script writes, and in whichever order the collector reads the logs,
the monitor goes through all of it. -/
theorem exists_observed :
    ∃ l, Observed textReader beyond conf words inputs (lines.zipIdx.map deliver) l := by
  let events := lines.zipIdx.map (fun line => EventLoop.Event.iterate (incomingOf line))
  have hone : EventLoop.mainProcessors.filterMap Processor.deficiency? =
      [DeficiencyProcessor.fresh] := rfl
  obtain ⟨l, d, hrun, -⟩ := EventLoop.run_idle hone events
  obtain ⟨hran, -, hpending⟩ := EventLoop.Ran.of_run hone hrun
  have hrecords : events.filterMap EventLoop.Event.record? =
      (lines.zipIdx.map deliver).map Delivery.record := by
    rw [List.filterMap_map, List.map_map]
    exact congrFun List.filterMap_eq_map _
  rw [hrecords] at hran
  exact ⟨l, hamount, hunit, htimely,
    arrives_deliver beyond hamount hunit htimely hsource horder, hran, hpending⟩

end Exists

/-- One instrument: its log is read from the front. -/
theorem exists_observed_single (conf : Conf) (words : String → List Sample)
    (hone : conf.instrumentAmount = 1) {inputs : ThreadInputs} (hunit : inputs.Unit)
    (htimely : inputs.Timely) (beyond : Nat → Char) :
    ∃ deliveries l, Observed textReader beyond conf words (fun _ => inputs) deliveries l := by
  let lines := (thread conf words 0 inputs).records.map (fun r => (0, r))
  have hamount : conf.instrumentAmount ≤ 10 ^ 9 := by omega
  have hsource : ∀ line ∈ lines, line.1 < conf.instrumentAmount := by
    intro line hline
    obtain ⟨r, -, rfl⟩ := List.mem_map.mp hline
    omega
  have horder : ∀ i < conf.instrumentAmount,
      (lines.filter (fun line => line.1 = i)).map Prod.snd =
        (thread conf words i inputs).records := by
    intro i hi
    obtain rfl : i = 0 := by omega
    simp [lines, List.filter_map, Function.comp_def]
  obtain ⟨l, hl⟩ := exists_observed beyond hamount (fun _ _ => hunit) (fun _ _ => htimely)
    hsource horder
  exact ⟨_, l, hl⟩

/-- A clock that shows a tenth of a second more than each tick, and draws that leave
the prices apart. -/
def steadyPass (nowTime : Int) : PassInputs where
  statistics := ⟨nowTime, 1 / 2, 0, 0, 0⟩
  statisticsTime := nowTime
  price := ⟨nowTime, 0, 0, 1, 0, 0, 0⟩
  priceTime := nowTime
  resendStatisticsTime := nowTime
  resendPriceTime := nowTime
  noiseTime := nowTime
  noiseIndex := 0
  nowTime := nowTime

def steadyInputs (ticks : Nat) : ThreadInputs where
  init := ⟨1600000000000, 0, 0, 0, 0, 1, 0⟩
  nowTime := 1600000000000
  passes := (List.range ticks).map (fun k : Nat =>
    steadyPass (1600000000000 + 500 * (k + 1) + 100))

theorem steadyInputs_unit (ticks : Nat) : (steadyInputs ticks).Unit := by
  refine ⟨by simp [steadyInputs, InitDraws.Unit, UnitDraw], ?_⟩
  intro p hp
  obtain ⟨k, -, rfl⟩ := List.mem_map.mp hp
  norm_num [steadyPass, PassInputs.draws, RoundDraws.Unit, UnitDraw]

theorem steadyInputs_timely {ticks : Nat} (h : ticks ≤ 10 ^ 6) : (steadyInputs ticks).Timely := by
  refine ⟨(by decide : ClockTime 1600000000000), ?_, ?_⟩
  · intro p hp
    obtain ⟨k, hk, rfl⟩ := List.mem_map.mp hp
    have hclock : ClockTime (1600000000000 + 500 * (k + 1) + 100) := by
      have hticks := List.mem_range.mp hk
      constructor <;> omega
    refine ⟨hclock, hclock, ?_⟩
    simp only [PassInputs.writeTimes, List.forall_mem_cons]
    exact ⟨hclock, hclock, hclock, hclock, List.forall_mem_nil _⟩
  · rw [steadyInputs, List.length_map, List.length_range]
    omega

/-- One instrument without faults. -/
def steadyConf : Conf where
  instrumentAmount := 1
  messageType := 3
  enableNoise := false
  feedCodeStartId := 1000
  timeLength := 240
  drop := noFault
  delay := noFault
  delayTimeLength := 1
  errorTurnover := noFault
  errorBidAsk := noFault
  errorPrice := noFault
  errorVolume := noFault

end OLog
