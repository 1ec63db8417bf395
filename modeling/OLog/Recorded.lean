import OLog.Written

/-!
What the records of a thread can contain. Every one of them, resent or not, is
made of a feed that was sent. As long as the clock has thirteen digits and the
run is not longer than three years, every number in it is of the type that the
monitor declares.
-/

namespace OLog.Generator

open Lib

/-- The times at which the records of a pass are written. -/
def PassInputs.writeTimes (p : PassInputs) : List Int :=
  [p.statisticsTime, p.priceTime, p.resendStatisticsTime, p.resendPriceTime]

/-- The record is made of one of the feeds, but for its schedules. -/
def Record.MadeFrom (conf : Conf) (times : List Int) (feeds : List Feed) (r : Record) : Prop :=
  ∃ feed ∈ feeds, ∃ written : Feed, written.Alike feed ∧
    ∃ kind : RecordKind, ∃ time ∈ times, r = kind.result written conf time

theorem RecordKind.mem_write_record (kind : RecordKind) {conf : Conf} {feed : Feed} {time : Int}
    {r : Record} (hprice : feed.priceFeed.exchangeTimestamp = feed.timestamp)
    (h : ⟨.own, .record r⟩ ∈ kind.write feed conf time) : r = kind.result feed conf time := by
  rw [kind.write_eq hprice] at h
  split_ifs at h
  · cases hfault : feed.fault conf kind with
    | none =>
        rw [hfault] at h
        cases List.mem_singleton.mp h
        rfl
    | some mark =>
        rw [hfault] at h
        cases mark with
        | drop | delay => simp [faultLines] at h
        | _ => simpa [faultLines] using h
  · cases h

section Recalls

variable {conf : Conf} {before : List Feed} {s : ThreadState}

/-- What is known of the feeds that were sent and of those that are kept. -/
structure ThreadState.Remembers (conf : Conf) (before : List Feed) (s : ThreadState) : Prop where
  recalls : s.Recalls conf before
  price : ∀ feed ∈ before, feed.priceFeed.exchangeTimestamp = feed.timestamp

namespace ThreadState.Remembers

variable (h : s.Remembers conf before)

include h

theorem price_next (inputs : PassInputs) : ∀ feed ∈ before ++ [s.next conf inputs],
    feed.priceFeed.exchangeTimestamp = feed.timestamp := by
  intro feed hfeed
  rcases List.mem_append.mp hfeed with hold | hnew
  · exact h.price feed hold
  · rw [List.mem_singleton.mp hnew]
    exact s.next_priceTimestamp conf inputs

theorem pass (randomLogSet : List String) (nowTime : Int) (inputs : PassInputs) :
    (s.pass conf randomLogSet nowTime inputs).Remembers conf
      (before ++ (s.passLog conf randomLogSet nowTime inputs).sent.toList) := by
  refine ⟨h.recalls.pass randomLogSet nowTime inputs, ?_⟩
  by_cases hsends : s.Sends nowTime
  · rw [(passLog_of_sends s conf randomLogSet nowTime inputs hsends).1]
    exact h.price_next inputs
  · rw [(passLog_of_not_sends s conf randomLogSet nowTime inputs hsends).1, Option.toList_none,
      List.append_nil]
    exact h.price

/-- The records of one pass. -/
theorem records (randomLogSet : List String) {nowTime : Int} (inputs : PassInputs)
    (hsends : s.Sends nowTime) {r : Record}
    (hr : ⟨.own, .record r⟩ ∈ (s.passLog conf randomLogSet nowTime inputs).writes) :
    r.MadeFrom conf inputs.writeTimes (before ++ [s.next conf inputs]) := by
  have hlines : ∀ {feed written : Feed}, feed ∈ before ++ [s.next conf inputs] →
      written.Alike feed → ∀ {time time' : Int}, time ∈ inputs.writeTimes →
      time' ∈ inputs.writeTimes →
      ⟨.own, .record r⟩ ∈ writeStatisticsFeed written conf time ++
        writePriceFeed written conf time' →
      r.MadeFrom conf inputs.writeTimes (before ++ [s.next conf inputs]) := by
    intro feed written hfeed halike time time' htime htime' hmem
    have hsame : written.priceFeed.exchangeTimestamp = written.timestamp := by
      unfold Feed.timestamp
      rw [halike.price, halike.statistics]
      exact h.price_next inputs feed hfeed
    rcases List.mem_append.mp hmem with hstatistics | hprices
    · exact ⟨feed, hfeed, written, halike, .statistics, time, htime,
        RecordKind.statistics.mem_write_record hsame hstatistics⟩
    · exact ⟨feed, hfeed, written, halike, .price, time', htime',
        RecordKind.price.mem_write_record hsame hprices⟩
  rw [(passLog_of_sends s conf randomLogSet nowTime inputs hsends).2, List.mem_append] at hr
  rcases hr with hown | hresent
  · refine hlines (List.mem_append_right _ List.mem_cons_self) ⟨rfl, rfl, rfl⟩ ?_ ?_ hown <;>
      simp [PassInputs.writeTimes]
  · unfold resentLines at hresent
    split_ifs at hresent
    · obtain ⟨delayed, hdelayed, hwrites⟩ := List.mem_flatMap.mp hresent
      obtain ⟨feed, hfeed, _, halike⟩ :=
        h.recalls.counted inputs delayed (List.mem_of_mem_take hdelayed)
      rcases List.mem_cons.mp hwrites with hresend | hwrites
      · cases hresend
      · refine hlines hfeed halike ?_ ?_ hwrites <;> simp [PassInputs.writeTimes]
    · cases hresent

end ThreadState.Remembers

end Recalls

/-- Every record in the log is made of a feed that was sent. -/
theorem record_sent {conf : Conf} {words : String → List Sample} {i : Nat}
    {inputs : ThreadInputs} {r : Record}
    (hr : ⟨.own, .record r⟩ ∈ (thread conf words i inputs).writes) :
    ∃ p ∈ inputs.passes, r.MadeFrom conf p.writeTimes
      (sentFeeds (threadLog conf words i inputs)) := by
  rw [thread_writes] at hr
  obtain ⟨entry, hentry, hr⟩ := List.mem_flatMap.mp hr
  refine ThreadState.forall_mem_loopLog_sent (P := (· ∈ inputs.passes))
    (I := fun before s => s.Remembers conf before)
    (Q := fun feeds entry => ⟨.own, .record r⟩ ∈ entry.writes →
      ∃ p ∈ inputs.passes, r.MadeFrom conf p.writeTimes feeds) ?_ ?_ (fun _ => id) _ []
    ⟨(fun _ hdelayed => nomatch hdelayed), List.forall_mem_nil _⟩ entry hentry hr
  · intro before s nowTime p hp h
    refine ⟨h.pass _ nowTime p, fun hr => ?_⟩
    by_cases hsends : s.Sends nowTime
    · have hmade := h.records _ p hsends hr
      rw [(s.passLog_of_sends conf _ nowTime p hsends).1]
      exact ⟨p, hp, hmade⟩
    · obtain ⟨timestamp, message, hline⟩ :=
        (s.passLog_of_not_sends conf _ nowTime p hsends).2 _ hr
      cases hline
  · intro before later entry hmade hr
    obtain ⟨p, hp, feed, hfeed, hfrom⟩ := hmade hr
    exact ⟨p, hp, feed, List.mem_append_left _ hfeed, hfrom⟩

/-- A time in milliseconds of thirteen digits, and with room to spare in an
`int64_t` when it is counted in nanoseconds. -/
def ClockTime (ms : Int) : Prop := 10 ^ 12 ≤ ms ∧ ms ≤ 9 * 10 ^ 12

instance (ms : Int) : Decidable (ClockTime ms) := by
  unfold ClockTime
  infer_instance

structure PassInputs.Timely (p : PassInputs) : Prop where
  statistics : ClockTime p.statistics.timestamp
  price : ClockTime p.price.timestamp
  writes : ∀ time ∈ p.writeTimes, ClockTime time

/-- The clock is in its range whenever it is read. After more passes the traded
volume might not fit into an `int`. -/
structure ThreadInputs.Timely (inputs : ThreadInputs) : Prop where
  init : ClockTime inputs.init.timestamp
  passes : ∀ p ∈ inputs.passes, p.Timely
  length : inputs.passes.length ≤ 2 * 10 ^ 8

/-- The numbers that a feed has from the start, after `n` rounds. -/
structure Started (i n : Nat) (sf : StatisticsFeed) (pf : PriceFeed) : Prop where
  instrument : sf.instrumentId = instrumentId + i ∧ pf.instrumentId = instrumentId + i
  fixed : ∀ q ∈ [sf.openingPrice, sf.closingPrice, sf.settlementPrice], 0 ≤ q ∧ q ≤ 9900
  openInterest : 0 ≤ sf.openInterest ∧ sf.openInterest ≤ 1000
  volume : sf.turnoverVolume ≤ 10 * n
  timestamp : 0 ≤ sf.exchangeTimestamp ∧
    sf.exchangeTimestamp ≤ 9 * 10 ^ 18 + n * 500000000

/-- With the numbers that each round draws anew. -/
structure Ranged (i n : Nat) (sf : StatisticsFeed) (pf : PriceFeed) : Prop extends
    Started i n sf pf where
  prices : ∀ q ∈ [sf.lowerPriceLimit, sf.lowPrice, sf.lastPrice, sf.highPrice,
    sf.upperPriceLimit, pf.bidPrice, pf.askPrice], 0 ≤ q ∧ q ≤ 9900
  value : 0 ≤ sf.turnoverValue ∧ sf.turnoverValue ≤ 9900 * sf.turnoverVolume
  traded : 0 ≤ sf.turnoverVolume
  lastVolume : 1 ≤ sf.lastVolume ∧ sf.lastVolume ≤ 10
  volumes : (1 ≤ pf.bidVolume ∧ pf.bidVolume ≤ 30) ∧ 1 ≤ pf.askVolume ∧ pf.askVolume ≤ 30
  streamId : (0 ≤ sf.streamId ∧ sf.streamId ≤ 1000) ∧ 0 ≤ pf.streamId ∧ pf.streamId ≤ 1000
  eventTime : (0 ≤ sf.eventTime ∧ sf.eventTime ≤ 9 * 10 ^ 18 + 10 ^ 6) ∧
    0 ≤ pf.eventTime ∧ pf.eventTime ≤ 9 * 10 ^ 18 + 10 ^ 6
  unused : sf.turnoverTradeCount = 0 ∧ pf.sequence = 0 ∧ pf.bidCount = 0 ∧ pf.askCount = 0 ∧
    pf.lastTradeTick = 0
  same : pf.exchangeTimestamp = sf.exchangeTimestamp

theorem generateInitFeed_started (i : Nat) (feedCodeStartId : Int) {init : InitDraws}
    (hunit : init.Unit) (hclock : ClockTime init.timestamp) :
    Started i 0 (generateInitFeed i feedCodeStartId init).statisticsFeed
      (generateInitFeed i feedCodeStartId init).priceFeed := by
  obtain ⟨hlo, hhi⟩ : 1000 ≤ uniform 1000 9000 init.settlementPrice ∧
      uniform 1000 9000 init.settlementPrice ≤ 9000 := uniform_mem (by norm_num) hunit.1
  refine ⟨⟨rfl, rfl⟩, ?_, randint_mem (by decide) _, le_refl _, ?_⟩
  · have hsettlement : 0 ≤ uniform 1000 9000 init.settlementPrice ∧
        uniform 1000 9000 init.settlementPrice ≤ 9900 := ⟨by linarith, by linarith⟩
    simpa [generateInitFeed] using hsettlement
  · obtain ⟨hfrom, hto⟩ := hclock
    change 0 ≤ init.timestamp / 500 * 500000000 ∧ init.timestamp / 500 * 500000000 ≤ _
    omega

theorem Started.round {i n : Nat} {feed : Feed} {id : Int} {code : String}
    (h : Started i n feed.statisticsFeed feed.priceFeed) (hfair : feed.Fair id code)
    {draws : RoundDraws} (hunit : draws.Unit) (hstatistics : ClockTime draws.statistics.timestamp)
    (hprice : ClockTime draws.price.timestamp) :
    Ranged i (n + 1) (feed.round draws).statisticsFeed (feed.round draws).priceFeed := by
  have hlegal := hfair.quoted.legal_round hunit
  have hnext := hfair.round hunit
  have hadvances := hfair.quoted.advances_round hunit
  obtain ⟨hlow, hhigh, hbid, hask, hturnover⟩ := hlegal
  obtain ⟨hlower, hupper⟩ := hnext.limits
  have hlast : 1 ≤ (feed.round draws).statisticsFeed.lastVolume ∧
      (feed.round draws).statisticsFeed.lastVolume ≤ 10 := randint_mem (by decide) _
  have htraded : (feed.round draws).statisticsFeed.turnoverVolume =
      feed.statisticsFeed.turnoverVolume + (feed.round draws).statisticsFeed.lastVolume := rfl
  have hvolume := h.volume
  have hstarted := h.timestamp
  have htick : (feed.round draws).statisticsFeed.exchangeTimestamp =
      feed.statisticsFeed.exchangeTimestamp + 500000000 := rfl
  have hevent : ∀ {timestamp : Int} {raw : Nat}, ClockTime timestamp →
      0 ≤ timestamp * 1000000 + randint 0 999999 raw ∧
        timestamp * 1000000 + randint 0 999999 raw ≤ 9 * 10 ^ 18 + 10 ^ 6 := by
    intro timestamp raw hclock
    obtain ⟨hfrom, hto⟩ := hclock
    have hraw := randint_mem (by decide : (0 : Int) ≤ 999999) raw
    omega
  refine ⟨⟨h.instrument, h.fixed, h.openInterest, ?_, ?_⟩, ?_, ?_, hnext.volume, hlast,
    ⟨hnext.bidVolume, hnext.askVolume⟩, ⟨randint_mem (by decide) _, randint_mem (by decide) _⟩,
    ⟨hevent hstatistics, hevent hprice⟩, ⟨rfl, rfl, rfl, rfl, rfl⟩, hadvances.same⟩
  · push_cast
    omega
  · push_cast
    omega
  · simp only [List.forall_mem_cons, List.not_mem_nil, false_implies, implies_true, and_true]
    refine ⟨?_, ?_, ?_, ?_, ?_, ?_, ?_⟩ <;> constructor <;> linarith
  · have hpositive : (0 : Rat) ≤ (feed.round draws).statisticsFeed.turnoverVolume := by
      exact_mod_cast hnext.volume
    constructor
    · exact (mul_nonneg (by linarith) hpositive).trans hturnover.1
    · exact hturnover.2.trans (mul_le_mul_of_nonneg_right hupper hpositive)

section Records

variable {i n : Nat} {sf : StatisticsFeed} {pf : PriceFeed}

theorem double_fits {q : Rat} (h : |q| ≤ 10 ^ 15) : FieldKind.double.Fits q := by
  have hnat : ∀ k : Nat, 10 ^ 15 ≤ (2 ^ 53 - 1) * 2 ^ k := fun k =>
    (by decide : 10 ^ 15 ≤ 2 ^ 53 - 1).trans (Nat.le_mul_of_pos_right _ (Nat.two_pow_pos k))
  have hmax : ((10 ^ 15 : Nat) : Rat) ≤ doubleMax := Nat.cast_le.mpr (hnat 971)
  refine h.trans (le_trans ?_ hmax)
  norm_num

theorem int32_fits {v : Int} (h : -2 ^ 31 ≤ v ∧ v ≤ 2 ^ 31 - 1) : FieldKind.int32.Fits v := h

theorem int64_fits {v : Int} (h : -2 ^ 63 ≤ v ∧ v ≤ 2 ^ 63 - 1) : FieldKind.int64.Fits v := h

theorem uint32_fits {v : Int} (h : 0 ≤ v ∧ v < 2 ^ 32) : FieldKind.uint32.Fits v := h

theorem price_fits {q : Rat} (h : 0 ≤ q ∧ q ≤ 9900) : FieldKind.double.Fits q := by
  apply double_fits
  rw [abs_of_nonneg h.1]
  linarith [h.2]

/-- Every number of a Statistics record fits into the member that it is read into. -/
theorem Ranged.statistics_assumed (h : Ranged i n sf pf) (hi : i ≤ 10 ^ 9) (hn : n ≤ 2 * 10 ^ 8)
    {time : Int} (htime : ClockTime time) : (Record.statistics time sf).Assumed := by
  obtain ⟨hfrom, hto⟩ := htime
  refine ⟨⟨hfrom, by omega⟩, ?_⟩
  have hprices := h.prices
  have hfixed := h.fixed
  simp only [List.forall_mem_cons, List.not_mem_nil, false_implies, implies_true, and_true]
    at hprices hfixed
  obtain ⟨hlower, hlow, hlast, hhigh, hupper, _, _⟩ := hprices
  obtain ⟨hopening, hclosing, hsettlement⟩ := hfixed
  have hvalue : |sf.turnoverValue| ≤ 10 ^ 15 := by
    have hcast : (sf.turnoverVolume : Rat) ≤ 2 * 10 ^ 9 := by
      have := h.volume
      exact_mod_cast (by omega : sf.turnoverVolume ≤ 2 * 10 ^ 9)
    rw [abs_of_nonneg h.value.1]
    linarith [h.value.2]
  have hid : sf.instrumentId = 2306359659839382000 + i := h.instrument.1
  have hvolume := h.volume
  have htraded := h.traded
  have hlastVolume := h.lastVolume
  have hstream := h.streamId
  have hevent := h.eventTime
  have hopen := h.openInterest
  have htick := h.timestamp
  have htrades := h.unused.1
  simp only [StatisticsFeed.layout, List.forall_mem_cons, List.not_mem_nil, false_implies,
    implies_true, and_true, ne_eq, not_true_eq_false, reduceCtorEq, not_false_eq_true,
    true_implies, true_and]
  exact ⟨int64_fits (by omega), price_fits hhigh, price_fits hlow, price_fits hopening,
    price_fits hclosing, price_fits hlast, int32_fits (by omega), double_fits hvalue,
    int32_fits (by omega), uint32_fits (by omega), price_fits hsettlement, uint32_fits (by omega),
    int64_fits (by omega), price_fits hupper, price_fits hlower, int64_fits (by omega),
    int64_fits (by omega)⟩

/-- Prices and volumes may have been exchanged or given the other sign. -/
theorem Ranged.price_assumed (h : Ranged i n sf pf) (hi : i ≤ 10 ^ 9) (hn : n ≤ 2 * 10 ^ 8)
    {time : Int} (htime : ClockTime time) {bidPrice askPrice : Rat} (hbid : |bidPrice| ≤ 9900)
    (hask : |askPrice| ≤ 9900) {bidVolume askVolume : Int}
    (hbids : -30 ≤ bidVolume ∧ bidVolume ≤ 30) (hasks : -30 ≤ askVolume ∧ askVolume ≤ 30) :
    (Record.price time {pf with
      bidPrice := bidPrice
      askPrice := askPrice
      bidVolume := bidVolume
      askVolume := askVolume}).Assumed := by
  obtain ⟨hfrom, hto⟩ := htime
  refine ⟨⟨hfrom, by omega⟩, ?_⟩
  have hid : pf.instrumentId = 2306359659839382000 + i := h.instrument.2
  have hstream := h.streamId
  have hevent := h.eventTime
  have htick := h.timestamp
  have hsame := h.same
  obtain ⟨_, hsequence, hbidCount, haskCount, htrade⟩ := h.unused
  simp only [PriceFeed.layout, List.forall_mem_cons, List.not_mem_nil, false_implies,
    implies_true, and_true, ne_eq, not_true_eq_false, reduceCtorEq, not_false_eq_true,
    true_implies, true_and]
  exact ⟨int64_fits (by omega), uint32_fits (by omega), double_fits (by linarith),
    int32_fits (by omega), uint32_fits (by omega), double_fits (by linarith),
    int32_fits (by omega), uint32_fits (by omega), uint32_fits (by omega),
    uint32_fits (by omega), int64_fits (by omega), int64_fits (by omega)⟩

/-- Falsified or not, the record of a feed fits. -/
theorem Ranged.result_assumed {feed : Feed}
    (h : Ranged i n feed.statisticsFeed feed.priceFeed) (hi : i ≤ 10 ^ 9) (hn : n ≤ 2 * 10 ^ 8)
    {time : Int} (htime : ClockTime time) (kind : RecordKind) (conf : Conf) :
    (kind.result feed conf time).Assumed := by
  cases kind with
  | statistics =>
      simp only [RecordKind.result]
      split_ifs
      · have hzero : Ranged i n
            {feed.statisticsFeed with turnoverValue := 0, turnoverVolume := 0} feed.priceFeed :=
          ⟨⟨h.instrument, h.fixed, h.openInterest, by simp, h.timestamp⟩, h.prices, by simp,
            le_refl _, h.lastVolume, h.volumes, h.streamId, h.eventTime, h.unused, h.same⟩
        exact hzero.statistics_assumed hi hn htime
      · exact h.statistics_assumed hi hn htime
  | price =>
      have hprices := h.prices
      simp only [List.forall_mem_cons, List.not_mem_nil, false_implies, implies_true, and_true]
        at hprices
      obtain ⟨_, _, _, _, _, ⟨hbid, hbid'⟩, hask, hask'⟩ := hprices
      obtain ⟨⟨hbids, hbids'⟩, hasks, hasks'⟩ := h.volumes
      have hbidAbs : |feed.priceFeed.bidPrice| ≤ 9900 := abs_le.mpr ⟨by linarith, hbid'⟩
      have haskAbs : |feed.priceFeed.askPrice| ≤ 9900 := abs_le.mpr ⟨by linarith, hask'⟩
      have hbidRange : -30 ≤ feed.priceFeed.bidVolume ∧ feed.priceFeed.bidVolume ≤ 30 :=
        ⟨by omega, hbids'⟩
      have haskRange : -30 ≤ feed.priceFeed.askVolume ∧ feed.priceFeed.askVolume ≤ 30 :=
        ⟨by omega, hasks'⟩
      simp only [RecordKind.result]
      split_ifs
      · exact h.price_assumed hi hn htime haskAbs hbidAbs hbidRange haskRange
      · exact h.price_assumed hi hn htime (by norm_num) (by rwa [zero_sub, abs_neg]) hbidRange
          haskRange
      · exact h.price_assumed hi hn htime hbidAbs haskAbs (by omega) (by omega)
      · exact h.price_assumed hi hn htime hbidAbs haskAbs hbidRange haskRange

end Records

/-- The feeds of a run that goes on after `n` passes. -/
theorem ThreadState.loopLog_ranged {conf : Conf} {i n : Nat} {id : Int} {code : String}
    {s : ThreadState} (hfair : s.feed.Fair id code)
    (h : Started i n s.feed.statisticsFeed s.feed.priceFeed) (randomLogSet : List String)
    (endTime : Int) {passes : List PassInputs} (hunit : ∀ p ∈ passes, p.draws.Unit)
    (htimely : ∀ p ∈ passes, p.Timely) (nowTime : Int) :
    ∀ feed ∈ sentFeeds (loopLog conf randomLogSet endTime passes nowTime s),
      ∃ m ≤ n + passes.length, Ranged i m feed.statisticsFeed feed.priceFeed := by
  induction passes generalizing nowTime s n with
  | nil => exact List.forall_mem_nil _
  | cons inputs rest ih =>
      obtain ⟨hdraws, hrest⟩ := List.forall_mem_cons.mp hunit
      obtain ⟨hclock, hlater⟩ := List.forall_mem_cons.mp htimely
      simp only [loopLog]
      split_ifs with htime
      · unfold sentFeeds at ih ⊢
        by_cases hsends : s.Sends nowTime
        · have hround : Ranged i (n + 1) (s.next conf inputs).statisticsFeed
              (s.next conf inputs).priceFeed :=
            h.round hfair hdraws hclock.statistics hclock.price
          have hleft := pass_left conf randomLogSet inputs hsends
          have hnext : Started i (n + 1)
              (s.pass conf randomLogSet nowTime inputs).feed.statisticsFeed
              (s.pass conf randomLogSet nowTime inputs).feed.priceFeed := by
            rw [hleft.alike.statistics, hleft.alike.price]
            exact hround.toStarted
          rw [List.filterMap_cons_some
            (passLog_of_sends s conf randomLogSet nowTime inputs hsends).1]
          refine List.forall_mem_cons.mpr ⟨⟨n + 1, by simp, hround⟩, ?_⟩
          intro feed hfeed
          obtain ⟨m, hm, hranged⟩ := ih ((next_sent conf hfair hdraws).toFair.of_alike hleft.alike)
            hnext hrest hlater inputs.nowTime feed hfeed
          exact ⟨m, by rw [List.length_cons]; omega, hranged⟩
        · have hfeed : (s.pass conf randomLogSet nowTime inputs).feed = s.feed := by
            rw [pass_of_not_sends s conf randomLogSet nowTime inputs hsends]
          rw [List.filterMap_cons_none
            (passLog_of_not_sends s conf randomLogSet nowTime inputs hsends).1]
          intro feed hmem
          obtain ⟨m, hm, hranged⟩ := ih (hfeed ▸ hfair) (hfeed ▸ h) hrest hlater inputs.nowTime
            feed hmem
          exact ⟨m, by rw [List.length_cons]; omega, hranged⟩
      · exact List.forall_mem_nil _

/-- In every run: no number in a record is out of range for the monitor. -/
theorem assumed_thread {conf : Conf} (words : String → List Sample) {i : Nat}
    (hi : i ≤ 10 ^ 9) {inputs : ThreadInputs} (hunit : inputs.Unit) (htimely : inputs.Timely) :
    ∀ w ∈ (thread conf words i inputs).writes, w.line.Assumed := by
  rintro ⟨file, line⟩ hw
  have hexpected := (thread_labelled conf words i inputs).writes _ hw
  cases line with
  | record r =>
      obtain ⟨rfl, _⟩ : file = .own ∧ _ := hexpected
      obtain ⟨p, hp, feed, hfeed, written, halike, kind, time, htime, rfl⟩ := record_sent hw
      have hfair : (threadStart conf i inputs).feed.Fair (i + conf.feedCodeStartId)
          (feedcodeOf conf i) :=
        (generateInitFeed_fair conf i hunit.init).of_alike ⟨rfl, rfl, rfl⟩
      have hstarted : Started i 0 (threadStart conf i inputs).feed.statisticsFeed
          (threadStart conf i inputs).feed.priceFeed :=
        generateInitFeed_started i conf.feedCodeStartId hunit.init htimely.init
      obtain ⟨m, hm, hranged⟩ := ThreadState.loopLog_ranged hfair hstarted
        (generateRandomData words) (inputs.nowTime + conf.timeLength * 1000) hunit.passes
        htimely.passes inputs.nowTime feed hfeed
      rw [← halike.statistics, ← halike.price] at hranged
      have hlength := htimely.length
      exact hranged.result_assumed hi (by omega) ((htimely.passes p hp).writes time htime) kind conf
  | _ => exact trivial

end OLog.Generator
