import Mathlib.Data.List.Chain
import OLog.DelayQueue
import OLog.LegalFeeds
import OLog.LogLine

/-!
What a thread of the script puts into its instrument's log, as the monitor will
see it. Each feed that is sent follows from the one before by one round of
draws, with its schedules moved on. If no record is delayed, the log holds the
records of these feeds, one after the other, but for those that were dropped.
-/

namespace OLog.Generator

open Lib

def PassInputs.draws (inputs : PassInputs) : RoundDraws := ⟨inputs.statistics, inputs.price⟩

/-- All prices of a thread are drawn by `random.uniform`. -/
structure ThreadInputs.Unit (inputs : ThreadInputs) : Prop where
  init : inputs.init.Unit
  passes : ∀ p ∈ inputs.passes, p.draws.Unit

/-- The feed that is sent next. -/
structure Feed.Succeeds (conf : Conf) (before after : Feed) : Prop where
  advances : before.Advances after
  schedule : ∀ mark, after.schedule mark =
    (before.schedule mark).advance (conf.fault mark) before.feedCodeId before.timestamp

theorem randint_mem {a b : Int} (hab : a ≤ b) (raw : Nat) :
    a ≤ randint a b raw ∧ randint a b raw ≤ b := by
  refine ⟨le_randint hab raw, ?_⟩
  have hlt := Int.emod_lt_of_pos raw (by omega : 0 < b - a + 1)
  unfold randint
  omega

/-- What holds of all feeds of an instrument. The price limits are those of the
initial feed. -/
structure Feed.Fair (id : Int) (code : String) (feed : Feed) : Prop where
  quoted : feed.Quoted
  limits : 900 ≤ feed.statisticsFeed.lowerPriceLimit ∧
    feed.statisticsFeed.upperPriceLimit ≤ 9900
  volume : 0 ≤ feed.statisticsFeed.turnoverVolume
  bidVolume : 1 ≤ feed.priceFeed.bidVolume ∧ feed.priceFeed.bidVolume ≤ 30
  askVolume : 1 ≤ feed.priceFeed.askVolume ∧ feed.priceFeed.askVolume ≤ 30
  id : feed.feedCodeId = id
  labelled : feed.Labelled code

/-- A feed that was sent. -/
structure Feed.Sent (id : Int) (code : String) (feed : Feed) : Prop extends
    feed.Fair id code where
  traded : 0 < feed.statisticsFeed.turnoverVolume
  same : feed.priceFeed.exchangeTimestamp = feed.timestamp

section Fair

variable {id : Int} {code : String} {feed other : Feed}

theorem Feed.Fair.of_alike (h : other.Fair id code) (halike : feed.Alike other) :
    feed.Fair id code := by
  obtain ⟨hquoted, hlimits, hvolume, hbids, hasks, hid, hlabelled⟩ := h
  obtain ⟨hpositive, hbid, hspread, hask, hlow, hhigh, hturnover⟩ := hquoted
  obtain ⟨hcode, hclosing, hprice⟩ := hlabelled
  rw [← halike.statistics] at hpositive hbid hask hlow hhigh hturnover hlimits hvolume
  rw [← halike.statistics] at hcode hclosing
  rw [← halike.price] at hbid hspread hask hprice hbids hasks
  exact ⟨⟨hpositive, hbid, hspread, hask, hlow, hhigh, hturnover⟩, hlimits, hvolume, hbids, hasks,
    halike.id.trans hid, hcode, hclosing, hprice⟩

theorem Feed.Fair.round (h : feed.Fair id code) {draws : RoundDraws} (hdraws : draws.Unit) :
    (feed.round draws).Fair id code := by
  have hadvances := h.quoted.advances_round hdraws
  have hlegal := h.quoted.legal_round hdraws
  refine ⟨hlegal.quoted h.quoted.positive, h.limits, ?_, randint_mem (by decide) _,
    randint_mem (by decide) _, h.id, ?_⟩
  · exact (h.volume.trans_lt hadvances.volume).le
  · exact ⟨h.labelled.statistics, h.labelled.closing, h.labelled.price⟩

theorem Feed.Sent.turnover (h : feed.Sent id code) : 900 ≤ feed.statisticsFeed.turnoverValue := by
  have hcast : (1 : Rat) ≤ feed.statisticsFeed.turnoverVolume := by exact_mod_cast h.traded
  have hlow := h.limits.1
  have hbounded := h.quoted.turnover.1
  nlinarith

end Fair

theorem generateInitFeed_fair (conf : Conf) (i : Nat) {init : InitDraws} (h : init.Unit) :
    (generateInitFeed i conf.feedCodeStartId init).Fair (i + conf.feedCodeStartId)
      (feedcodeOf conf i) := by
  obtain ⟨hlo, hhi⟩ : 1000 ≤ uniform 1000 9000 init.settlementPrice ∧
      uniform 1000 9000 init.settlementPrice ≤ 9000 := uniform_mem (by norm_num) h.1
  refine ⟨generateInitFeed_quoted i _ h, ⟨?_, ?_⟩, le_refl _, randint_mem (by decide) _,
    randint_mem (by decide) _, rfl, rfl, rfl, rfl⟩
  · change 900 ≤ uniform 1000 9000 init.settlementPrice * (9 / 10)
    linarith
  · change uniform 1000 9000 init.settlementPrice * (11 / 10) ≤ 9900
    linarith

/-- What a pass leaves behind that has sent the feed. -/
structure ThreadState.Left (conf : Conf) (sent : Feed) (s : ThreadState) : Prop where
  alike : s.feed.Alike sent
  schedule : ∀ mark, s.feed.schedule mark =
    (sent.schedule mark).advance (conf.fault mark) sent.feedCodeId sent.timestamp

namespace ThreadState

variable (conf : Conf) {id : Int} {code : String} {s : ThreadState} {sent : Feed}

theorem pass_left (randomLogSet : List String) {nowTime : Int} (inputs : PassInputs)
    (h : s.Sends nowTime) :
    (s.pass conf randomLogSet nowTime inputs).Left conf (s.next conf inputs) := by
  constructor
  · rw [pass_of_sends s conf randomLogSet nowTime inputs h, resend_eq]
    simp only [countErrors, counted_feed]
    exact ⟨rfl, rfl, rfl⟩
  · intro mark
    rw [pass_schedule s conf randomLogSet nowTime inputs h, next_schedule]
    rfl

theorem next_sent (h : s.feed.Fair id code) {inputs : PassInputs} (hunit : inputs.draws.Unit) :
    (s.next conf inputs).Sent id code := by
  have hround : s.next conf inputs = s.feed.round inputs.draws := rfl
  rw [hround]
  exact ⟨h.round hunit, h.volume.trans_lt (h.quoted.advances_round hunit).volume, rfl⟩

variable {conf}

theorem Left.succeeds (h : s.Left conf sent) (hfair : s.feed.Fair id code) {inputs : PassInputs}
    (hunit : inputs.draws.Unit) : sent.Succeeds conf (s.next conf inputs) := by
  obtain ⟨hvalue, hvolume, htimestamp, hsame⟩ := hfair.quoted.advances_round hunit
  rw [h.alike.statistics] at hvalue hvolume htimestamp
  refine ⟨⟨hvalue, hvolume, htimestamp, hsame⟩, ?_⟩
  intro mark
  rw [next_schedule, h.schedule]

/-- The feeds of a run, behind the one that was sent last before it, if any. -/
theorem loopLog_succeeds (h : s.feed.Fair id code) (last : Option Feed)
    (hlast : ∀ sent ∈ last, s.Left conf sent) (randomLogSet : List String) (endTime : Int)
    {passes : List PassInputs} (hunit : ∀ p ∈ passes, p.draws.Unit) (nowTime : Int) :
    (last.toList ++ sentFeeds (loopLog conf randomLogSet endTime passes nowTime s)).IsChain
        (Feed.Succeeds conf) ∧
      ∀ feed ∈ sentFeeds (loopLog conf randomLogSet endTime passes nowTime s),
        feed.Sent id code := by
  have hnone : (last.toList ++ []).IsChain (Feed.Succeeds conf) := by
    cases last with
    | none => exact List.isChain_nil
    | some sent => exact List.isChain_singleton _
  induction passes generalizing nowTime s last with
  | nil => exact ⟨hnone, List.forall_mem_nil _⟩
  | cons inputs rest ih =>
      obtain ⟨hdraws, hrest⟩ := List.forall_mem_cons.mp hunit
      simp only [loopLog]
      split_ifs with htime
      · unfold sentFeeds at ih ⊢
        by_cases hsends : s.Sends nowTime
        · have hnext := next_sent conf h hdraws
          have hleft := pass_left conf randomLogSet inputs hsends
          obtain ⟨hchain, hall⟩ := ih (hnext.toFair.of_alike hleft.alike) (some _)
            (fun _ heq => Option.mem_some.mp heq ▸ hleft) hrest inputs.nowTime
              (List.isChain_singleton _)
          rw [List.filterMap_cons_some
            (passLog_of_sends s conf randomLogSet nowTime inputs hsends).1]
          refine ⟨?_, List.forall_mem_cons.mpr ⟨hnext, hall⟩⟩
          cases last with
          | none => exact hchain
          | some sent =>
              exact List.isChain_cons_cons.mpr ⟨(hlast sent rfl).succeeds h hdraws, hchain⟩
        · have hfeed : (s.pass conf randomLogSet nowTime inputs).feed = s.feed := by
            rw [pass_of_not_sends s conf randomLogSet nowTime inputs hsends]
          rw [List.filterMap_cons_none
            (passLog_of_not_sends s conf randomLogSet nowTime inputs hsends).1]
          refine ih (hfeed ▸ h) last ?_ hrest inputs.nowTime hnone
          intro sent hsent
          obtain ⟨halike, hschedule⟩ := hlast sent hsent
          exact ⟨hfeed ▸ halike, hfeed ▸ hschedule⟩
      · exact ⟨hnone, List.forall_mem_nil _⟩

end ThreadState

section Succeeds

variable {conf : Conf} {before after : Feed}

/-- No two neighbours have the same fault: the intervals are whole seconds. -/
theorem Feed.Succeeds.not_faulty (h : before.Succeeds conf after) {mark : Mark}
    (hfaulty : before.Faulty conf mark) : ¬ after.Faulty conf mark := by
  rintro ⟨_, _, hdue⟩
  have hnow := hfaulty.2.2
  have hmoved : (before.schedule mark).advance (conf.fault mark) before.feedCodeId
      before.timestamp = ⟨(before.schedule mark).next + (conf.fault mark).interval * 10,
        (before.schedule mark).current + 1⟩ := if_pos hfaulty
  rw [h.schedule, hmoved] at hdue
  have hstep : after.timestamp = before.timestamp + 500000000 := h.advances.timestamp
  dsimp only at hdue
  omega

/-- Later, and with more turnover. -/
structure Feed.Precedes (before after : Feed) : Prop where
  timestamp : before.timestamp < after.timestamp
  value : before.statisticsFeed.turnoverValue < after.statisticsFeed.turnoverValue
  volume : before.statisticsFeed.turnoverVolume < after.statisticsFeed.turnoverVolume

theorem Feed.Succeeds.precedes (h : before.Succeeds conf after) : before.Precedes after := by
  refine ⟨?_, h.advances.value, h.advances.volume⟩
  have hstep : after.timestamp = before.timestamp + 500000000 := h.advances.timestamp
  omega

instance : Trans Feed.Precedes Feed.Precedes Feed.Precedes where
  trans h h' := ⟨h.timestamp.trans h'.timestamp, h.value.trans h'.value, h.volume.trans h'.volume⟩

end Succeeds

section Thread

variable (conf : Conf) (words : String → List Sample) (i : Nat) {inputs : ThreadInputs}
  (h : inputs.Unit)

include h

theorem threadLog_succeeds :
    (sentFeeds (threadLog conf words i inputs)).IsChain (Feed.Succeeds conf) ∧
      ∀ feed ∈ sentFeeds (threadLog conf words i inputs),
        feed.Sent (i + conf.feedCodeStartId) (feedcodeOf conf i) := by
  refine ThreadState.loopLog_succeeds ?_ none (fun _ hsent => nomatch hsent) _ _ h.passes _
  exact (generateInitFeed_fair conf i h.init).of_alike ⟨rfl, rfl, rfl⟩

end Thread

/-- A record as the monitor reads it: with six decimals. -/
def printedStatistics (sf : StatisticsFeed) : StatisticsFeed :=
  {sf with
    timestamp := 0
    highPrice := sixDecimals sf.highPrice
    lowPrice := sixDecimals sf.lowPrice
    openingPrice := sixDecimals sf.openingPrice
    closingPrice := sixDecimals sf.closingPrice
    lastPrice := sixDecimals sf.lastPrice
    turnoverValue := sixDecimals sf.turnoverValue
    settlementPrice := sixDecimals sf.settlementPrice
    upperPriceLimit := sixDecimals sf.upperPriceLimit
    lowerPriceLimit := sixDecimals sf.lowerPriceLimit}

def printedPrice (pf : PriceFeed) : PriceFeed :=
  {pf with
    timestamp := 0
    bidPrice := sixDecimals pf.bidPrice
    askPrice := sixDecimals pf.askPrice}

/-- What the monitor gets of a write. -/
def Write.feed? : Write → Option OLog.Feed
  | ⟨.own, .record result⟩ => some result.written
  | _ => none

/-- The tick of a record of the kind that the other log has behind the mark. -/
def markedTick? (mark : Mark) (kind : RecordKind) : Write → Option Int
  | ⟨.error, .marked other result⟩ =>
      if other = mark ∧ result.kind = kind then some result.exchangeTimestamp else none
  | _ => none

def ThreadState.writtenFeeds (s : ThreadState) : List OLog.Feed := s.writes.filterMap Write.feed?

/-- The ticks that the other log reports for the mark and the kind. -/
def ThreadState.markedTicks (s : ThreadState) (mark : Mark) (kind : RecordKind) : List Int :=
  s.writes.filterMap (markedTick? mark kind)

namespace Feed

variable (conf : Conf) (feed : Feed)

/-- The Statistics feed that the monitor gets, if the record is written. -/
def statisticsReport : StatisticsFeed :=
  printedStatistics (
    if feed.Faulty conf .errorTurnover then
      {feed.statisticsFeed with turnoverValue := 0, turnoverVolume := 0}
    else feed.statisticsFeed)

def priceReport : PriceFeed :=
  let pf := feed.priceFeed
  printedPrice (
    if feed.Faulty conf .errorBidAsk then
      {pf with bidPrice := pf.askPrice, askPrice := pf.bidPrice}
    else if feed.Faulty conf .errorPrice then {pf with bidPrice := 0, askPrice := 0 - pf.bidPrice}
    else if feed.Faulty conf .errorVolume then
      {pf with bidVolume := 0 - pf.bidVolume, askVolume := 0 - pf.askVolume}
    else pf)

def report : RecordKind → OLog.Feed
  | .statistics => .statistics (feed.statisticsReport conf)
  | .price => .price (feed.priceReport conf)

/-- The prices or volumes are falsified, or bid and ask price are the same once
they are printed. -/
def Suspect : Prop :=
  feed.Faulty conf .errorBidAsk ∨ feed.Faulty conf .errorPrice ∨ feed.Faulty conf .errorVolume ∨
    sixDecimals feed.priceFeed.bidPrice = sixDecimals feed.priceFeed.askPrice

instance : Decidable (feed.Suspect conf) := by
  unfold Suspect
  infer_instance

/-- The records of the feed go into the log at once. -/
def Prompt : Prop := ¬ feed.Faulty conf .drop ∧ ¬ feed.Faulty conf .delay

instance : Decidable (feed.Prompt conf) := by
  unfold Prompt
  infer_instance

def reports (kind : RecordKind) : List OLog.Feed :=
  if kind.Enabled conf ∧ feed.Prompt conf then [feed.report conf kind] else []

end Feed

theorem RecordKind.written_result (kind : RecordKind) (feed : Feed) (conf : Conf) (time : Int) :
    (kind.result feed conf time).written = feed.report conf kind := by
  cases kind with
  | statistics =>
      simp only [result, Feed.report, Feed.statisticsReport]
      split_ifs <;> rfl
  | price =>
      simp only [result, Feed.report, Feed.priceReport]
      split_ifs <;> rfl

theorem filterMap_faultLines (result : Record) (fault : Option Mark) (mark : Mark)
    (kind : RecordKind) : (faultLines result fault).filterMap (markedTick? mark kind) =
      if fault = some mark ∧ result.kind = kind then [result.exchangeTimestamp] else [] := by
  have hmarked : ∀ found, [(⟨.error, .marked found result⟩ : Write)].filterMap
      (markedTick? mark kind) =
        if some found = some mark ∧ result.kind = kind then [result.exchangeTimestamp] else [] := by
    intro found
    simp only [Option.some.injEq]
    by_cases hboth : found = mark ∧ result.kind = kind
    · rw [if_pos hboth, List.filterMap_cons_some (by rw [markedTick?, if_pos hboth])]
      rfl
    · rw [if_neg hboth, List.filterMap_cons_none (by rw [markedTick?, if_neg hboth])]
      rfl
  cases fault with
  | none => rfl
  | some found =>
      rw [← hmarked found]
      cases found <;> rfl

section Fault

variable {conf : Conf} {feed : Feed} (kind : RecordKind)

theorem Feed.fault_of_drop (h : feed.Faulty conf .drop) : feed.fault conf kind = some .drop := by
  cases kind <;> simp [Feed.fault, RecordKind.marks, h]

theorem Feed.fault_of_delay (hdrop : ¬ feed.Faulty conf .drop) (h : feed.Faulty conf .delay) :
    feed.fault conf kind = some .delay := by
  cases kind <;> simp [Feed.fault, RecordKind.marks, hdrop, h]

theorem Feed.faulty_of_fault {kind : RecordKind} {mark : Mark}
    (h : feed.fault conf kind = some mark) : feed.Faulty conf mark := by
  simpa using List.find?_some h

theorem Feed.fault_eq_drop_iff : feed.fault conf kind = some .drop ↔ feed.Faulty conf .drop :=
  ⟨Feed.faulty_of_fault, feed.fault_of_drop kind⟩

theorem Feed.Prompt.fault_eq_errorTurnover_iff (h : feed.Prompt conf) :
    feed.fault conf .statistics = some .errorTurnover ↔ feed.Faulty conf .errorTurnover := by
  refine ⟨Feed.faulty_of_fault, fun hfaulty => ?_⟩
  simp [Feed.fault, RecordKind.marks, h.1, h.2, hfaulty]

variable (conf) (hprice : feed.priceFeed.exchangeTimestamp = feed.timestamp)

include hprice

theorem RecordKind.feeds_write (time : Int) :
    (kind.write feed conf time).filterMap Write.feed? = feed.reports conf kind := by
  rw [kind.write_eq hprice, Feed.reports]
  by_cases henabled : kind.Enabled conf
  · simp only [henabled, if_true, true_and]
    by_cases hprompt : feed.Prompt conf
    · rw [if_pos hprompt, ← kind.written_result feed conf time]
      cases hfault : feed.fault conf kind with
      | none => rfl
      | some mark =>
          have hfaulty := Feed.faulty_of_fault hfault
          cases mark with
          | drop => exact absurd hfaulty hprompt.1
          | delay => exact absurd hfaulty hprompt.2
          | _ => rfl
    · rw [if_neg hprompt]
      by_cases hdrop : feed.Faulty conf .drop
      · rw [feed.fault_of_drop kind hdrop]
        rfl
      · have hdelay : feed.Faulty conf .delay := by
          by_contra hnot
          exact hprompt ⟨hdrop, hnot⟩
        rw [feed.fault_of_delay kind hdrop hdelay]
        rfl
  · simp only [henabled, if_false, false_and, List.filterMap_nil]

theorem Feed.feeds_writes (time time' : Int) :
    (writeStatisticsFeed feed conf time ++ writePriceFeed feed conf time').filterMap Write.feed? =
      feed.reports conf .statistics ++ feed.reports conf .price := by
  rw [List.filterMap_append]
  exact congrArg₂ (· ++ ·) (RecordKind.statistics.feeds_write conf hprice time)
    (RecordKind.price.feeds_write conf hprice time')

theorem RecordKind.marked_write (other : RecordKind) (mark : Mark) (time : Int) :
    (kind.write feed conf time).filterMap (markedTick? mark other) =
      if kind = other ∧ kind.Enabled conf ∧ feed.fault conf kind = some mark then
        [feed.timestamp]
      else [] := by
  have hlines := filterMap_faultLines (kind.result feed conf time) (feed.fault conf kind) mark other
  rw [kind.result_kind, kind.result_exchangeTimestamp hprice] at hlines
  rw [kind.write_eq hprice]
  by_cases henabled : kind.Enabled conf
  · simp only [henabled, if_true, true_and, hlines]
    simp only [and_comm]
  · simp [henabled]

theorem Feed.marked_writes (mark : Mark) (time time' : Int) :
    (writeStatisticsFeed feed conf time ++ writePriceFeed feed conf time').filterMap
        (markedTick? mark kind) =
      if kind.Enabled conf ∧ feed.fault conf kind = some mark then [feed.timestamp] else [] := by
  have hstatistics := RecordKind.statistics.marked_write conf hprice kind mark time
  have hprices := RecordKind.price.marked_write conf hprice kind mark time'
  rw [List.filterMap_append]
  cases kind with
  | statistics => exact (congrArg₂ (· ++ ·) hstatistics hprices).trans (by simp)
  | price => exact (congrArg₂ (· ++ ·) hstatistics hprices).trans (by simp)

end Fault

theorem flatMap_ite {α β : Type} (p : α → Prop) [DecidablePred p] (f : α → β) (l : List α) :
    l.flatMap (fun x => if p x then [f x] else []) = (l.filter p).map f := by
  induction l with
  | nil => rfl
  | cons x l ih =>
      by_cases hx : p x
      · simp [hx, ih]
      · simp [hx, ih]

/-- The schedule of a fault does not concern the instrument. -/
def Spared (conf : Conf) (i : Nat) (mark : Mark) : Prop :=
  ¬ inRange (i + conf.feedCodeStartId) (conf.fault mark).feedCodeStartId
    (conf.fault mark).instrumentAmount

instance (conf : Conf) (i : Nat) (mark : Mark) : Decidable (Spared conf i mark) := by
  unfold Spared
  infer_instance

theorem Spared.not_faulty {conf : Conf} {i : Nat} {mark : Mark} (h : Spared conf i mark)
    {feed : Feed} (hid : feed.feedCodeId = i + conf.feedCodeStartId) :
    ¬ feed.Faulty conf mark := by
  intro hfaulty
  exact h (hid ▸ hfaulty.1)

section Undelayed

variable {conf : Conf} {α : Type} {f : Write → Option α} {F : Feed → List α}
  (hnoise : ∀ timestamp message, f ⟨.own, .noise timestamp message⟩ = none)
  (hsent : ∀ (feed : Feed) (time time' : Int),
    feed.priceFeed.exchangeTimestamp = feed.timestamp →
      (writeStatisticsFeed feed conf time ++ writePriceFeed feed conf time').filterMap f = F feed)

include hnoise hsent

/-- If nothing can be read off the lines that are resent, all that is read off the
lines of a run can be read off the feeds that it sends. -/
theorem ThreadState.filterMap_loopLog {I : ThreadState → Prop} {randomLogSet : List String}
    (hpass : ∀ s nowTime inputs, I s → I (s.pass conf randomLogSet nowTime inputs))
    (hresent : ∀ (s : ThreadState) inputs, I s →
      ((s.counted conf inputs).resentLines conf inputs).filterMap f = [])
    {s : ThreadState} (h : I s) (endTime : Int) (passes : List PassInputs) (nowTime : Int) :
    ((loopLog conf randomLogSet endTime passes nowTime s).flatMap PassLog.writes).filterMap f =
      (sentFeeds (loopLog conf randomLogSet endTime passes nowTime s)).flatMap F := by
  induction passes generalizing nowTime s with
  | nil => rfl
  | cons inputs rest ih =>
      simp only [loopLog]
      split_ifs with htime
      · have hrest := ih (hpass s nowTime inputs h) inputs.nowTime
        unfold sentFeeds at hrest ⊢
        rw [List.flatMap_cons, List.filterMap_append, hrest]
        by_cases hsends : s.Sends nowTime
        · obtain ⟨hfeed, hwrites⟩ := passLog_of_sends s conf randomLogSet nowTime inputs hsends
          rw [List.filterMap_cons_some hfeed, hwrites, List.filterMap_append, hresent s inputs h,
            List.append_nil, hsent _ _ _ (s.next_priceTimestamp conf inputs), List.flatMap_cons]
        · obtain ⟨hnone, hwrites⟩ :=
            passLog_of_not_sends s conf randomLogSet nowTime inputs hsends
          have hnothing : (s.passLog conf randomLogSet nowTime inputs).writes.filterMap f = [] := by
            apply List.filterMap_eq_nil_iff.mpr
            intro write hwrite
            obtain ⟨timestamp, message, rfl⟩ := hwrites write hwrite
            exact hnoise timestamp message
          rw [List.filterMap_cons_none hnone, hnothing, List.nil_append]
      · rfl

/-- A thread without delays resends nothing. -/
theorem filterMap_thread {i : Nat} (hspared : Spared conf i .delay)
    (words : String → List Sample) (inputs : ThreadInputs) :
    (thread conf words i inputs).writes.filterMap f =
      (sentFeeds (threadLog conf words i inputs)).flatMap F := by
  rw [thread_writes]
  refine ThreadState.filterMap_loopLog hnoise hsent
    (I := fun s => s.feed.feedCodeId = i + conf.feedCodeStartId) ?_ ?_ rfl _ _ _
  · intro s nowTime inputs hid
    by_cases hsends : s.Sends nowTime
    · exact (ThreadState.pass_feed s conf _ nowTime inputs hsends).2.trans hid
    · rw [ThreadState.pass_of_not_sends s conf _ nowTime inputs hsends]
      exact hid
  · intro s inputs hid
    apply congrArg (List.filterMap f) (if_neg ?_)
    rintro ⟨hrange, _⟩
    rw [ThreadState.counted_feed] at hrange
    exact hspared (hid ▸ hrange)

end Undelayed

section Thread

variable {conf : Conf} {i : Nat} (hspared : Spared conf i .delay) (words : String → List Sample)
  (inputs : ThreadInputs)

include hspared

/-- The feeds in the instrument's log. -/
theorem writtenFeeds_thread : (thread conf words i inputs).writtenFeeds =
    (sentFeeds (threadLog conf words i inputs)).flatMap (fun feed =>
      feed.reports conf .statistics ++ feed.reports conf .price) := by
  exact filterMap_thread (fun _ _ => rfl)
    (fun _ time time' hprice => Feed.feeds_writes conf hprice time time') hspared words inputs

/-- The notes in the other log. -/
theorem markedTicks_thread (mark : Mark) (kind : RecordKind) :
    (thread conf words i inputs).markedTicks mark kind =
      ((sentFeeds (threadLog conf words i inputs)).filter (fun feed =>
        kind.Enabled conf ∧ feed.fault conf kind = some mark)).map Feed.timestamp := by
  rw [← flatMap_ite]
  exact filterMap_thread (fun _ _ => rfl)
    (fun _ time time' hprice => Feed.marked_writes conf kind hprice mark time time')
    hspared words inputs

end Thread

end OLog.Generator
