import OLog.Continuity
import OLog.Lib.Decimal
import OLog.Overflow
import OLog.Validity

/-!
Both processors format every alert into a `char r[200]` on the stack. How long
a text gets depends on the digits of what it prints: a delay or a miss always
fits, the other three need not, because prices and turnovers are printed in
full whatever their size. The digits are those of the double that is stored,
which a numeral may exceed or fall short of, and a zero may be stored with its
sign bit set.
-/

namespace OLog

open Lib DeficiencyProcessor

/-- The text leaves room for its terminator. A `Char` stands for one byte, also those
of the feedcode. -/
def Alert.Fits (alert : Alert) (minus : ZeroSigns) : Prop := (alert.format minus).length ≤ 199

instance (alert : Alert) (minus : ZeroSigns) : Decidable (alert.Fits minus) := by
  unfold Alert.Fits
  infer_instance

section Lengths

-- In each of the five formats the first number is the length of the constant pieces.

variable (minus : ZeroSigns) (feedcode log : String) (timestamp volume askVolume : Int)
  (value askPrice : Rat)

theorem turnoverText_length (sign : Bool) :
    (turnoverText sign feedcode timestamp volume value log).length =
      78 + feedcode.length + intWidth timestamp + intWidth volume + doubleWidth sign value +
        log.length := by
  have hpieces : (turnoverText sign feedcode timestamp volume value log).length =
      13 + (feedcode.length + (15 + ((showInt timestamp).length + (20 +
        ((showInt volume).length + (19 + ((showDouble sign value).length + (9 +
        (log.length + (2 + 0)))))))))) :=
    length_foldl_append _ [feedcode, _, showInt timestamp, _, showInt volume, _,
      showDouble sign value, _, log, _]
  rw [hpieces, length_showInt, length_showInt, length_showDouble]
  clear hpieces
  omega

theorem invalidTurnover_length :
    ((Alert.invalidTurnover feedcode timestamp volume value).format minus).length =
      119 + feedcode.length + intWidth timestamp + intWidth volume +
        doubleWidth minus.turnoverValue value := by
  have hlog : "Invalid turnover value or turnover volume".length = 41 := by decide
  unfold Alert.format
  rw [turnoverText_length, hlog]
  clear hlog
  omega

theorem monotonicity_length :
    ((Alert.monotonicity feedcode timestamp volume value).format minus).length =
      144 + feedcode.length + intWidth timestamp + intWidth volume +
        doubleWidth minus.turnoverValue value := by
  have hlog :
      "Turnover value or turnover volume should be monotonically increase".length = 66 := by
    decide
  unfold Alert.format
  rw [turnoverText_length, hlog]
  clear hlog
  omega

theorem delay_length : ((Alert.delay feedcode timestamp value).format minus).length =
    47 + feedcode.length + intWidth timestamp + fixedWidth value := by
  have hpieces : ((Alert.delay feedcode timestamp value).format minus).length =
      13 + (feedcode.length + (16 + ((showInt timestamp).length + (15 +
        ((showFixed value).length + (3 + 0)))))) :=
    length_foldl_append _ [feedcode, _, showInt timestamp, _, showFixed value, _]
  rw [hpieces, length_showInt, length_showFixed]
  clear hpieces
  omega

theorem miss_length : ((Alert.miss feedcode timestamp).format minus).length =
    43 + feedcode.length + intWidth timestamp := by
  have hpieces : ((Alert.miss feedcode timestamp).format minus).length =
      13 + (feedcode.length + (15 + ((showInt timestamp).length + (9 + (4 + (2 + 0)))))) :=
    length_foldl_append _ [feedcode, _, showInt timestamp, _, _, _]
  rw [hpieces, length_showInt]
  clear hpieces
  omega

theorem validity_length :
    ((Alert.validity feedcode timestamp value askPrice volume askVolume log).format minus).length =
      96 + feedcode.length + intWidth timestamp + doubleWidth minus.bidPrice value +
        doubleWidth minus.askPrice askPrice + intWidth volume + intWidth askVolume +
        log.length := by
  have hpieces :
      ((Alert.validity feedcode timestamp value askPrice volume askVolume log).format
          minus).length =
        13 + (feedcode.length + (15 + ((showInt timestamp).length + (14 +
          ((showDouble minus.bidPrice value).length + (14 +
          ((showDouble minus.askPrice askPrice).length + (14 +
          ((showInt volume).length + (15 + ((showInt askVolume).length + (9 +
          (log.length + (2 + 0)))))))))))))) :=
    length_foldl_append _ [feedcode, _, showInt timestamp, _, showDouble minus.bidPrice value, _,
      showDouble minus.askPrice askPrice, _, showInt volume, _, showInt askVolume, _, log, _]
  rw [hpieces, length_showInt, length_showDouble, length_showDouble, length_showInt,
    length_showInt]
  clear hpieces
  omega

end Lengths

/-- `build` never sets the member that the turnover alerts print as their
timestamp, and the exchange timestamp is a 64-bit number. -/
theorem StatisticsFeed.ofRecord_timestamps (round : Rat → Rat) (record : String) :
    (ofRecord round record).timestamp = 0 ∧
      InInt64 (ofRecord round record).exchangeTimestamp := by
  have hstart : ({} : StatisticsFeed).timestamp = 0 ∧
      InInt64 ({} : StatisticsFeed).exchangeTimestamp := by decide
  refine buildFrom_invariant
    (I := fun sf : StatisticsFeed => sf.timestamp = 0 ∧ InInt64 sf.exchangeTimestamp)
    round layout record.toList _ ?_ hstart
  have hint64 : ∀ text, InInt64 (scanInt (-2 ^ 63) (2 ^ 63 - 1) text).value := by
    intro text
    obtain ⟨hlo, hhi⟩ : -2 ^ 63 ≤ (scanInt (-2 ^ 63) (2 ^ 63 - 1) text).value ∧ _ :=
      scanInt_range (by decide) (by decide) text
    exact ⟨hlo, by omega⟩
  intro field hfield text sf hsf
  simp only [layout, List.mem_cons, List.not_mem_nil, or_false] at hfield
  rcases hfield with rfl | rfl | rfl | rfl | rfl | rfl | rfl | rfl | rfl | rfl | rfl | rfl |
    rfl | rfl | rfl | rfl | rfl | rfl | rfl
  all_goals first
    | exact hsf
    | exact ⟨hsf.1, hint64 text⟩

theorem intWidth_int64 {x : Int} (h : InInt64 x) : intWidth x ≤ 20 := by
  obtain ⟨hlo, hhi⟩ := h
  apply intWidth_le (by decide)
  omega

/-- The timestamps in a context are 64-bit numbers. -/
structure Context.InRange (context : Context) : Prop where
  expect : InInt64 context.expectTimestamp
  waiting : ∀ r ∈ context.queue.toList, InInt64 r.exchangeTimestamp

/-- The first gap is the expected tick or comes right after a tick that waits. -/
theorem Context.InRange.gap_width {context : Context} (h : context.InRange)
    {sf : StatisticsFeed} (hsf : InInt64 sf.exchangeTimestamp) :
    intWidth (context.view.gap sf) ≤ 20 := by
  have hlo := (h.expect.1).trans (context.view.le_gap sf)
  have hhi : context.view.gap sf < 2 ^ 63 + interval := by
    cases hrun : context.view.run sf with
    | zero =>
        have hgap : context.view.gap sf = context.expectTimestamp := by
          rw [Tracker.gap, hrun, tick_zero]
          rfl
        have := h.expect.2
        have := interval_pos
        omega
    | succ n =>
        have hgap : context.view.gap sf =
            tick context.expectTimestamp interval n + interval := by
          rw [Tracker.gap, hrun]
          exact tick_succ _ _ _
        have hlt : n < context.view.run sf := by omega
        have hmem : tick context.expectTimestamp interval n ∈
            timestamps (sf ::ₘ context.view.waiting) := Tracker.mem_of_lt_run hlt
        obtain ⟨f, hf, hts⟩ := mem_timestamps.mp hmem
        have hbound : f.exchangeTimestamp < 2 ^ 63 := by
          rcases Multiset.mem_cons.mp hf with rfl | hf
          · exact hsf.2
          · obtain ⟨r, hr, rfl⟩ := List.mem_map.mp (Multiset.mem_coe.mp hf)
            exact (h.waiting r hr).2
        omega
  have hinterval : interval = 500000000 := rfl
  apply intWidth_le (by decide)
  omega

section Sites

variable (minus : ZeroSigns)

theorem miss_fits {context : Context} (h : context.InRange) {sf : StatisticsFeed}
    (hcode : sf.feedcode.length ≤ 20) (hsf : InInt64 sf.exchangeTimestamp) :
    (Alert.miss sf.feedcode (context.view.gap sf)).Fits minus := by
  have hwidth := h.gap_width hsf
  unfold Alert.Fits
  rw [miss_length]
  omega

/-- Each of the two roundings at most doubles, which leaves ten digits to spare. -/
theorem delaySeconds_width {nanoseconds : Int} (hnonneg : 0 ≤ nanoseconds)
    (hrange : nanoseconds ≤ 2 ^ 64) : fixedWidth (delaySeconds nanoseconds) ≤ 11 + 7 := by
  have hcast : (0 : Rat) ≤ nanoseconds := by exact_mod_cast hnonneg
  have hbound : (nanoseconds : Rat) ≤ 2 ^ 64 := by exact_mod_cast hrange
  have hquotient : 0 ≤ nearestDouble nanoseconds / 1000000000 :=
    div_nonneg (nearestDouble_nonneg hcast) (by norm_num)
  have hseconds : delaySeconds nanoseconds ≤ 10 ^ 11 - 1 := by
    calc delaySeconds nanoseconds ≤ 2 * (nearestDouble nanoseconds / 1000000000) :=
          nearestDouble_le_two_mul hquotient
      _ ≤ 2 * (2 * nanoseconds / 1000000000) := by
          gcongr
          exact nearestDouble_le_two_mul hcast
      _ ≤ 2 * (2 * 2 ^ 64 / 1000000000) := by gcongr
      _ ≤ 10 ^ 11 - 1 := by norm_num
  apply fixedWidth_le (by decide)
  · exact nearestDouble_nonneg hquotient
  · linarith

theorem delay_fits {et : Int} (het : InInt64 et) {sf : StatisticsFeed}
    (hcode : sf.feedcode.length ≤ 20) (hsf : InInt64 sf.exchangeTimestamp)
    (hlate : sf.exchangeTimestamp < et) : (Tracker.delayAlert sf et).Fits minus := by
  have hts := intWidth_int64 hsf
  have hseconds : fixedWidth (delaySeconds (et - sf.exchangeTimestamp)) ≤ 11 + 7 := by
    have := het.2
    have := hsf.1
    apply delaySeconds_width <;> omega
  unfold Alert.Fits Tracker.delayAlert
  rw [delay_length]
  omega

/-- How many characters the variable parts of a turnover alert take. -/
def StatisticsFeed.turnoverWidth (sf : StatisticsFeed) : Nat :=
  sf.feedcode.length + intWidth sf.turnoverVolume +
    doubleWidth minus.turnoverValue sf.turnoverValue

/-- How many characters the variable parts of a validity record take. -/
def PriceFeed.validityWidth (pf : PriceFeed) : Nat :=
  pf.feedcode.length + intWidth pf.exchangeTimestamp + doubleWidth minus.bidPrice pf.bidPrice +
    doubleWidth minus.askPrice pf.askPrice + intWidth pf.bidVolume + intWidth pf.askVolume +
    (if ValidityProcessor.invalidPrice pf then 14 else 0) +
    (if ValidityProcessor.invalidVolume pf then 14 else 0)

theorem invalidAlerts_fit_iff {sf : StatisticsFeed} (hzero : sf.timestamp = 0) :
    (∀ alert ∈ Tracker.invalidAlerts sf, alert.Fits minus) ↔
      (sf.turnoverValue ≤ 0 ∨ sf.turnoverVolume ≤ 0 → sf.turnoverWidth minus ≤ 79) := by
  unfold Tracker.invalidAlerts
  split_ifs with hinvalid
  · have hwidth : intWidth 0 = 1 := by decide
    simp only [List.forall_mem_singleton, Alert.Fits, invalidTurnover_length, hzero, hwidth,
      hinvalid, forall_const, StatisticsFeed.turnoverWidth]
    omega
  · simp [hinvalid]

theorem monotonicityAlert_fits_iff {sf : StatisticsFeed} (hzero : sf.timestamp = 0) :
    (Tracker.monotonicityAlert sf).Fits minus ↔ sf.turnoverWidth minus ≤ 54 := by
  have hwidth : intWidth 0 = 1 := by decide
  simp only [Alert.Fits, Tracker.monotonicityAlert, monotonicity_length, hzero, hwidth,
    StatisticsFeed.turnoverWidth]
  omega

theorem continuityAlerts_fit_iff {context : Context} {sf : StatisticsFeed}
    (hzero : sf.timestamp = 0) (hearly : context.expectTimestamp < sf.exchangeTimestamp) :
    (∀ alert ∈ context.view.continuityAlerts sf (context.view.run sf), alert.Fits minus) ↔
      (context.Checks sf → turnoverBelow sf context → sf.turnoverWidth minus ≤ 54) := by
  have hbelow : Tracker.Below sf context.view ↔ turnoverBelow sf context := Iff.rfl
  rw [← context.checks_view, ← Tracker.run_pos_iff hearly, Tracker.continuityAlerts,
    ← monotonicityAlert_fits_iff minus hzero, Nat.pos_iff_ne_zero]
  split_ifs with h
  · simp only [List.mem_replicate, and_imp, forall_eq_apply_imp_iff, hbelow.mp h, true_imp_iff]
  · have hnot : ¬ turnoverBelow sf context := fun hb => h (hbelow.mpr hb)
    simp [hnot]

/-- What receiving a feed records. -/
theorem receive_fits_iff {context : Context} (h : context.InRange) {sf : StatisticsFeed}
    (hcode : sf.feedcode.length ≤ 20) (hzero : sf.timestamp = 0)
    (hsf : InInt64 sf.exchangeTimestamp) :
    (∀ alert ∈ (context.view.receive sf).2, alert.Fits minus) ↔
      (context.Checks sf → turnoverBelow sf context → sf.turnoverWidth minus ≤ 54) := by
  have hnot : ¬ context.expectTimestamp < sf.exchangeTimestamp →
      (context.Checks sf → turnoverBelow sf context → sf.turnoverWidth minus ≤ 54) :=
    fun hnot hchecks => absurd hchecks.1 hnot
  rcases lt_trichotomy context.expectTimestamp sf.exchangeTimestamp with ht | ht | ht
  · rw [← continuityAlerts_fit_iff minus hzero ht]
    by_cases hsize : queueLimit < (context.view.kept sf).card
    · rw [Tracker.receive_early_miss ht hsize, List.forall_mem_append,
        List.forall_mem_singleton]
      exact and_iff_left (miss_fits minus h hcode hsf)
    · rw [Tracker.receive_early_wait ht (not_lt.mp hsize)]
  · rw [Tracker.receive_onTime ht]
    exact iff_of_true (List.forall_mem_nil _) (hnot (by omega))
  · rw [Tracker.receive_late ht]
    refine iff_of_true ?_ (hnot (by omega))
    rw [List.forall_mem_singleton]
    exact delay_fits minus h.expect hcode hsf ht

end Sites

theorem logText_length (pf : PriceFeed) : (ValidityProcessor.logText pf).length =
    (if ValidityProcessor.invalidPrice pf then 14 else 0) +
      (if ValidityProcessor.invalidVolume pf then 14 else 0) := by
  unfold ValidityProcessor.logText
  split_ifs <;> rfl

/-- Whatever the record, the state, the rounding of the record's numerals and the signs
of stored zeros: the texts that `exec` formats for its feed fit in the buffer exactly
if the digits of what they print leave room. -/
theorem alert_texts_fit_iff (round : Rat → Rat) (minus : ZeroSigns) (record : String)
    (message : KafkaMessage) :
    (∀ s t : ExecState,
      (StatisticsFeed.ofRecord round record).feedcode.length ≤ 20 →
      (s.contextFor (StatisticsFeed.ofRecord round record)).InRange →
      exec {s with heap := (s.heap.alloc (Incoming.toMessage
          ⟨message, .statistics (StatisticsFeed.ofRecord round record)⟩)).2} s.heap.brk = .ok t →
      ((∀ alert ∈ t.self.res.json, alert.Fits minus) ↔
        ((StatisticsFeed.ofRecord round record).turnoverValue ≤ 0 ∨
            (StatisticsFeed.ofRecord round record).turnoverVolume ≤ 0 →
          (StatisticsFeed.ofRecord round record).turnoverWidth minus ≤ 79) ∧
        ((s.contextFor (StatisticsFeed.ofRecord round record)).Checks
            (StatisticsFeed.ofRecord round record) →
          turnoverBelow (StatisticsFeed.ofRecord round record)
            (s.contextFor (StatisticsFeed.ofRecord round record)) →
          (StatisticsFeed.ofRecord round record).turnoverWidth minus ≤ 54))) ∧
    ∀ (v : ValidityProcessor) (addr : Nat), ∃ v',
      v.exec (Incoming.toMessage ⟨message, .price (PriceFeed.ofRecord round record)⟩ addr) =
          .ok v' ∧
        ((∀ alert ∈ v'.res.json, alert.Fits minus) ↔
          (PriceFeed.ofRecord round record).validityWidth minus ≤ 103) := by
  constructor
  · intro s t hcode hcontext hexec
    obtain ⟨hzero, hsf⟩ := StatisticsFeed.ofRecord_timestamps round record
    let incoming : Incoming := ⟨message, .statistics (StatisticsFeed.ofRecord round record)⟩
    let ready : ExecState := {s with heap := (s.heap.alloc incoming.toMessage).2}
    have hget : ready.heap.get? s.heap.brk = some (incoming.toMessage (s.heap.brk + 1)) :=
      Heap.alloc_get?_new _ _
    have href := toMessage_statistics_ref? message (StatisticsFeed.ofRecord round record)
      (s.heap.brk + 1)
    have hjson := exec_alerts hget href hexec
    rw [tracker_exec_eq] at hjson
    rw [hjson, List.forall_mem_append, invalidAlerts_fit_iff minus hzero,
      ← receive_fits_iff minus hcontext hcode hzero hsf]
    rfl
  · intro v addr
    have honly : ∀ res : ProRes, res.json = [] → ∀ alert : Alert,
        (∀ a ∈ (res.push alert).json, a.Fits minus) ↔ alert.Fits minus := by
      intro res hres alert
      simp [ProRes.push, hres]
    refine ⟨_, rfl, (honly _ ?_ _).trans ?_⟩
    · split_ifs <;> rfl
    · unfold Alert.Fits PriceFeed.validityWidth
      rw [validity_length, logText_length]
      omega

-- The double nearest to `10 ^ 65` is below it and has one digit less.
example : fixedWidth (10 ^ 65) = 73 ∧ fixedWidth (nearestDouble (10 ^ 65)) = 72 := by
  decide +kernel

/-- A Statistics record with the given turnover. -/
def turnoverRecord (value volume : String) : String :=
  "rb1000,1,2,2,2,2,X,2,10," ++ value ++ "," ++ volume ++ ",3,0,7,1500000000,3,1,4,1500000000"

/-- A Price record with a code of twenty characters and prices just below the
limit, for which both volumes are as given. -/
def priceRecord (volume : String) : String :=
  "rb100000000000000000,1,2,999999999999998," ++ volume ++ ",3,999999999999999," ++ volume ++
    ",3,4,7,1500000000,1500000000000000000"

/-- The processors' input for a sample record. -/
def sampleReady (record : String) : ExecState :=
  {Session.start.state with heap := (Session.start.state.heap.alloc (Incoming.toMessage
    ⟨⟨"feed", 0, 0⟩, .statistics (StatisticsFeed.ofRecord nearestDouble record)⟩)).2}

def samplePrice (record : String) : MyMessage :=
  Incoming.toMessage ⟨⟨"feed", 0, 0⟩, .price (PriceFeed.ofRecord nearestDouble record)⟩ 1

/-- What is read from the sample records. -/
def turnoverSample (value : Rat) (volume : Int) : StatisticsFeed :=
  {feedcode := "rb1000", instrumentId := 1, highPrice := 2, lowPrice := 2, openingPrice := 2,
   closingPrice := 2, closingPriceType := "X", lastPrice := 2, lastVolume := 10,
   turnoverValue := value, turnoverVolume := volume, turnoverTradeCount := 3, streamId := 7,
   eventTime := 1500000000, upperPriceLimit := 3, lowerPriceLimit := 1, openInterest := 4,
   exchangeTimestamp := 1500000000}

def priceSample (volume : Int) : PriceFeed :=
  {feedcode := "rb100000000000000000", instrumentId := 1, sequence := 2,
   bidPrice := 999999999999998, bidVolume := volume, bidCount := 3, askPrice := 999999999999999,
   askVolume := volume, askCount := 3, lastTradeTick := 4, streamId := 7, eventTime := 1500000000,
   exchangeTimestamp := 1500000000000000000}

theorem ofRecord_turnover_valid :
    StatisticsFeed.ofRecord nearestDouble (turnoverRecord "25" "0") = turnoverSample 25 0 := by
  decide +kernel

theorem ofRecord_turnover_long :
    StatisticsFeed.ofRecord nearestDouble (turnoverRecord "1e70" "0") =
      turnoverSample (nearestDouble (10 ^ 70)) 0 := by
  decide +kernel

theorem ofRecord_price_valid :
    PriceFeed.ofRecord nearestDouble (priceRecord "2147483647") = priceSample 2147483647 := by
  decide +kernel

theorem ofRecord_price_lowest :
    PriceFeed.ofRecord nearestDouble (priceRecord "-2147483648") = priceSample (-2147483648) := by
  decide +kernel

/-- The greatest valid prices and volumes fill the buffer to the last character. -/
theorem alert_texts_fit_valid :
    (∃ t, exec (sampleReady (turnoverRecord "25" "0")) Session.start.state.heap.brk = .ok t ∧
      ∀ alert ∈ t.self.res.json, alert.Fits {}) ∧
    ∃ v', ValidityProcessor.fresh.exec (samplePrice (priceRecord "2147483647")) = .ok v' ∧
      ∀ alert ∈ v'.res.json, alert.Fits {} := by
  constructor
  · have hall := (alert_texts_fit_iff nearestDouble {} (turnoverRecord "25" "0") ⟨"feed", 0, 0⟩).1
      Session.start.state
    unfold sampleReady
    rw [ofRecord_turnover_valid] at hall ⊢
    obtain ⟨t, ht, _⟩ : ∃ t, exec {Session.start.state with
        heap := (Session.start.state.heap.alloc (Incoming.toMessage
          ⟨⟨"feed", 0, 0⟩, .statistics (turnoverSample 25 0)⟩)).2}
        Session.start.state.heap.brk = .ok t ∧ t.self.res.json.length = 1 := by
      apply exists_ok_of_check
      decide +kernel
    have hcontext : (Session.start.state.contextFor (turnoverSample 25 0)).InRange :=
      ⟨by decide +kernel, fun r hr => by cases hr⟩
    have hiff := hall t (by decide +kernel) hcontext ht
    exact ⟨t, ht, hiff.mpr ⟨fun _ => by decide +kernel, fun _ => by decide +kernel⟩⟩
  · have hall := (alert_texts_fit_iff nearestDouble {} (priceRecord "2147483647") ⟨"feed", 0, 0⟩).2
      ValidityProcessor.fresh 1
    unfold samplePrice
    rw [ofRecord_price_valid] at hall ⊢
    obtain ⟨v', hv', hiff⟩ := hall
    exact ⟨v', hv', hiff.mpr (by decide +kernel)⟩

/-- A turnover value of seventy-one digits whose volume is zero, and two lowest
volumes next to the greatest prices. -/
theorem alert_text_overflows :
    (StatisticsFeed.ofRecord nearestDouble (turnoverRecord "1e70" "0")).feedcode.length ≤ 20 ∧
    (∃ t, exec (sampleReady (turnoverRecord "1e70" "0")) Session.start.state.heap.brk = .ok t ∧
      t.self.res.json.map (fun alert => (alert.format {}).length) = [205]) ∧
    (PriceFeed.ofRecord nearestDouble (priceRecord "-2147483648")).feedcode.length ≤ 20 ∧
    ∃ v', ValidityProcessor.fresh.exec (samplePrice (priceRecord "-2147483648")) = .ok v' ∧
      v'.res.json.map (fun alert => (alert.format {}).length) = [215] := by
  unfold sampleReady samplePrice
  rw [ofRecord_turnover_long, ofRecord_price_lowest]
  refine ⟨by decide +kernel, ?_, by decide +kernel, ?_⟩
  · obtain ⟨t, ht, hjson⟩ : ∃ t, exec {Session.start.state with
        heap := (Session.start.state.heap.alloc (Incoming.toMessage
          ⟨⟨"feed", 0, 0⟩, .statistics (turnoverSample (nearestDouble (10 ^ 70)) 0)⟩)).2}
        Session.start.state.heap.brk = .ok t ∧
          t.self.res.json = [.invalidTurnover "rb1000" 0 0 (nearestDouble (10 ^ 70))] := by
      apply exists_ok_of_check
      decide +kernel
    refine ⟨t, ht, ?_⟩
    rw [hjson, List.map_singleton, invalidTurnover_length]
    decide +kernel
  · obtain ⟨v', hv', hjson⟩ : ∃ v', ValidityProcessor.fresh.exec
        (Incoming.toMessage ⟨⟨"feed", 0, 0⟩, .price (priceSample (-2147483648))⟩ 1) = .ok v' ∧
          v'.res.json = [.validity "rb100000000000000000" 1500000000000000000 999999999999998
            999999999999999 (-2147483648) (-2147483648) "Invalid volume"] := by
      apply exists_ok_of_check
      decide +kernel
    refine ⟨v', hv', ?_⟩
    rw [hjson, List.map_singleton, validity_length]
    decide +kernel

end OLog
