import Mathlib.Algebra.Order.Field.Rat
import Mathlib.Tactic.Linarith
import Mathlib.Tactic.Positivity
import OLog.Deficiency
import OLog.Generator

/-!
The feeds that the script draws before any fault is put into them. Every price
comes from an interval that is made of the previous round's other prices and of
the limits; bid and ask prices that enclose each other within the limits keep
all these intervals from being empty, and a round restores them.
-/

namespace OLog.Generator

/-- What `random()` may give for `uniform` to lie between its ends. -/
def UnitDraw (u : Rat) : Prop := 0 ≤ u ∧ u ≤ 1

/-- Unit draws make `uniform` take exactly the values between its ends. -/
theorem uniform_mem_iff {a b : Rat} (hab : a ≤ b) (x : Rat) :
    (∃ u, UnitDraw u ∧ uniform a b u = x) ↔ a ≤ x ∧ x ≤ b := by
  constructor
  · rintro ⟨u, ⟨hlo, hhi⟩, rfl⟩
    unfold uniform
    constructor
    · nlinarith
    · nlinarith
  · rintro ⟨hlo, hhi⟩
    rcases hab.eq_or_lt with rfl | hlt
    · refine ⟨0, ⟨le_refl 0, zero_le_one⟩, ?_⟩
      unfold uniform
      linarith
    · have hwidth : 0 < b - a := by linarith
      refine ⟨(x - a) / (b - a), ⟨?_, ?_⟩, ?_⟩
      · apply div_nonneg <;> linarith
      · rw [div_le_one hwidth]
        linarith
      · unfold uniform
        rw [mul_div_cancel₀ _ hwidth.ne']
        ring

theorem uniform_mem {a b u : Rat} (hab : a ≤ b) (hu : UnitDraw u) :
    a ≤ uniform a b u ∧ uniform a b u ≤ b :=
  (uniform_mem_iff hab _).mp ⟨u, hu, rfl⟩

theorem le_randint {a b : Int} (hab : a ≤ b) (raw : Nat) : a ≤ randint a b raw := by
  have hmod : 0 ≤ (raw : Int) % (b - a + 1) := Int.emod_nonneg _ (by omega)
  unfold randint
  omega

def InitDraws.Unit (draws : InitDraws) : Prop :=
  UnitDraw draws.settlementPrice ∧ UnitDraw draws.bidPrice ∧ UnitDraw draws.askPrice

/-- The draws of one round. -/
structure RoundDraws where
  statistics : StatisticsDraws
  price : PriceDraws

def RoundDraws.Unit (draws : RoundDraws) : Prop :=
  UnitDraw draws.statistics.lastPrice ∧ UnitDraw draws.price.bidPrice ∧
    UnitDraw draws.price.askPrice

def Feed.round (feed : Feed) (draws : RoundDraws) : Feed :=
  generateLegalPriceFeed (generateLegalStatisticsFeed feed draws.statistics) draws.price

/-- The feed after some rounds. -/
def rounds (i : Nat) (feedCodeStartId : Int) (init : InitDraws) (draws : List RoundDraws) : Feed :=
  draws.foldl Feed.round (generateInitFeed i feedCodeStartId init)

/-- All traded volume has been traded within the limits. -/
def TurnoverBounded (sf : StatisticsFeed) : Prop :=
  sf.lowerPriceLimit * sf.turnoverVolume ≤ sf.turnoverValue ∧
    sf.turnoverValue ≤ sf.upperPriceLimit * sf.turnoverVolume

structure Feed.Legal (feed : Feed) : Prop where
  low : feed.statisticsFeed.lowerPriceLimit ≤ feed.statisticsFeed.lowPrice ∧
    feed.statisticsFeed.lowPrice ≤ feed.statisticsFeed.lastPrice
  high : feed.statisticsFeed.lastPrice ≤ feed.statisticsFeed.highPrice ∧
    feed.statisticsFeed.highPrice ≤ feed.statisticsFeed.upperPriceLimit
  bid : feed.statisticsFeed.lowerPriceLimit ≤ feed.priceFeed.bidPrice ∧
    feed.priceFeed.bidPrice ≤ feed.statisticsFeed.lastPrice
  ask : feed.statisticsFeed.lastPrice ≤ feed.priceFeed.askPrice ∧
    feed.priceFeed.askPrice ≤ feed.statisticsFeed.upperPriceLimit
  turnover : TurnoverBounded feed.statisticsFeed

/-- How a round moves the figures that only grow. -/
structure Feed.Advances (before after : Feed) : Prop where
  value : before.statisticsFeed.turnoverValue < after.statisticsFeed.turnoverValue
  volume : before.statisticsFeed.turnoverVolume < after.statisticsFeed.turnoverVolume
  timestamp : after.statisticsFeed.exchangeTimestamp =
    before.statisticsFeed.exchangeTimestamp + interval
  same : after.priceFeed.exchangeTimestamp = after.statisticsFeed.exchangeTimestamp

/-- What a round needs to find. The first one finds no last price and extreme
prices that are not prices; these are replaced by it. -/
structure Feed.Quoted (feed : Feed) : Prop where
  positive : 0 < feed.statisticsFeed.lowerPriceLimit
  bid : feed.statisticsFeed.lowerPriceLimit ≤ feed.priceFeed.bidPrice
  spread : feed.priceFeed.bidPrice ≤ feed.priceFeed.askPrice
  ask : feed.priceFeed.askPrice ≤ feed.statisticsFeed.upperPriceLimit
  low : feed.statisticsFeed.lowerPriceLimit ≤ feed.statisticsFeed.lowPrice
  high : feed.statisticsFeed.highPrice ≤ feed.statisticsFeed.upperPriceLimit
  turnover : TurnoverBounded feed.statisticsFeed

theorem generateInitFeed_quoted (i : Nat) (feedCodeStartId : Int) {init : InitDraws}
    (h : init.Unit) : (generateInitFeed i feedCodeStartId init).Quoted := by
  obtain ⟨hsettlement, hbid, hask⟩ := h
  let settlement := uniform 1000 9000 init.settlementPrice
  let bid := uniform (settlement * (99 / 100)) (settlement * (101 / 100)) init.bidPrice
  obtain ⟨hslo, hshi⟩ : 1000 ≤ settlement ∧ settlement ≤ 9000 :=
    uniform_mem (by norm_num) hsettlement
  obtain ⟨hblo, hbhi⟩ : settlement * (99 / 100) ≤ bid ∧ bid ≤ settlement * (101 / 100) :=
    uniform_mem (by linarith) hbid
  obtain ⟨halo, hahi⟩ : bid ≤ uniform bid (bid * (101 / 100)) init.askPrice ∧ _ :=
    uniform_mem (by linarith) hask
  constructor
  · change 0 < settlement * (9 / 10)
    linarith
  · change settlement * (9 / 10) ≤ bid
    linarith
  · exact halo
  · change uniform bid (bid * (101 / 100)) init.askPrice ≤ settlement * (11 / 10)
    linarith
  · change settlement * (9 / 10) ≤ 2 ^ 63 - 1
    linarith
  · change 0 ≤ settlement * (11 / 10)
    linarith
  · change settlement * (9 / 10) * ((0 : Int) : Rat) ≤ 0 ∧
      0 ≤ settlement * (11 / 10) * ((0 : Int) : Rat)
    simp

namespace Feed.Quoted

variable {feed : Feed}

/-- The last price is drawn between the limits. -/
theorem lastPrice_mem (h : feed.Quoted) {draws : StatisticsDraws}
    (hdraws : UnitDraw draws.lastPrice) :
    feed.statisticsFeed.lowerPriceLimit ≤
        (generateLegalStatisticsFeed feed draws).statisticsFeed.lastPrice ∧
      (generateLegalStatisticsFeed feed draws).statisticsFeed.lastPrice ≤
        feed.statisticsFeed.upperPriceLimit := by
  obtain ⟨hpositive, hbid, hspread, hask, _, _, _⟩ := h
  have hends : max feed.statisticsFeed.lowerPriceLimit (feed.priceFeed.bidPrice * (99 / 100)) ≤
      min feed.statisticsFeed.upperPriceLimit (feed.priceFeed.askPrice * (101 / 100)) := by
    apply max_le <;> apply le_min <;> linarith
  obtain ⟨hlo, hhi⟩ := uniform_mem hends hdraws
  exact ⟨(le_max_left _ _).trans hlo, hhi.trans (min_le_left _ _)⟩

/-- A last price within the limits has legal bid and ask prices around it. -/
theorem quotes_mem {draws : PriceDraws} (hbid : UnitDraw draws.bidPrice)
    (hask : UnitDraw draws.askPrice)
    (hpositive : 0 < feed.statisticsFeed.lowerPriceLimit)
    (hlo : feed.statisticsFeed.lowerPriceLimit ≤ feed.statisticsFeed.lastPrice)
    (hhi : feed.statisticsFeed.lastPrice ≤ feed.statisticsFeed.upperPriceLimit) :
    (feed.statisticsFeed.lowerPriceLimit ≤ (generateLegalPriceFeed feed draws).priceFeed.bidPrice ∧
        (generateLegalPriceFeed feed draws).priceFeed.bidPrice ≤ feed.statisticsFeed.lastPrice) ∧
      feed.statisticsFeed.lastPrice ≤ (generateLegalPriceFeed feed draws).priceFeed.askPrice ∧
        (generateLegalPriceFeed feed draws).priceFeed.askPrice ≤
          feed.statisticsFeed.upperPriceLimit := by
  have hbelow : max feed.statisticsFeed.lowerPriceLimit
      (feed.statisticsFeed.lastPrice * (99 / 100)) ≤ feed.statisticsFeed.lastPrice := by
    apply max_le <;> linarith
  have habove : feed.statisticsFeed.lastPrice ≤
      min feed.statisticsFeed.upperPriceLimit (feed.statisticsFeed.lastPrice * (101 / 100)) := by
    apply le_min <;> linarith
  obtain ⟨hbidLo, hbidHi⟩ := uniform_mem hbelow hbid
  obtain ⟨haskLo, haskHi⟩ := uniform_mem habove hask
  exact ⟨⟨(le_max_left _ _).trans hbidLo, hbidHi⟩, haskLo, haskHi.trans (min_le_left _ _)⟩

theorem turnover_round (h : feed.Quoted) {draws : StatisticsDraws}
    (hdraws : UnitDraw draws.lastPrice) :
    TurnoverBounded (generateLegalStatisticsFeed feed draws).statisticsFeed := by
  obtain ⟨hlo, hhi⟩ := h.lastPrice_mem hdraws
  obtain ⟨hvalueLo, hvalueHi⟩ := h.turnover
  have hvolume : (0 : Rat) ≤ (randint 1 10 draws.lastVolume : Int) := by
    have := le_randint (by decide : (1 : Int) ≤ 10) draws.lastVolume
    exact_mod_cast (by omega : (0 : Int) ≤ randint 1 10 draws.lastVolume)
  have hadd := mul_le_mul_of_nonneg_right hlo hvolume
  have hadd' := mul_le_mul_of_nonneg_right hhi hvolume
  have hvalue : (generateLegalStatisticsFeed feed draws).statisticsFeed.turnoverValue =
      feed.statisticsFeed.turnoverValue +
        (generateLegalStatisticsFeed feed draws).statisticsFeed.lastPrice *
          (randint 1 10 draws.lastVolume : Int) := rfl
  have htotal : ((generateLegalStatisticsFeed feed draws).statisticsFeed.turnoverVolume : Rat) =
      feed.statisticsFeed.turnoverVolume + (randint 1 10 draws.lastVolume : Int) :=
    Int.cast_add _ _
  unfold TurnoverBounded
  rw [hvalue, htotal]
  constructor
  · change feed.statisticsFeed.lowerPriceLimit * _ ≤ _
    linarith
  · change _ ≤ feed.statisticsFeed.upperPriceLimit * _
    linarith

theorem advances_round (h : feed.Quoted) {draws : RoundDraws} (hdraws : draws.Unit) :
    feed.Advances (feed.round draws) := by
  obtain ⟨hlo, _⟩ := h.lastPrice_mem hdraws.1
  have hpositive := h.positive
  have hvolume := le_randint (by decide : (1 : Int) ≤ 10) draws.statistics.lastVolume
  have hcast : (1 : Rat) ≤ (randint 1 10 draws.statistics.lastVolume : Int) := by
    exact_mod_cast hvolume
  refine ⟨?_, ?_, rfl, rfl⟩
  · have hproduct : 0 <
        (generateLegalStatisticsFeed feed draws.statistics).statisticsFeed.lastPrice *
          (randint 1 10 draws.statistics.lastVolume : Int) := by
      apply mul_pos <;> linarith
    exact lt_add_of_pos_right _ hproduct
  · change feed.statisticsFeed.turnoverVolume < feed.statisticsFeed.turnoverVolume +
      randint 1 10 draws.statistics.lastVolume
    omega

theorem legal_round (h : feed.Quoted) {draws : RoundDraws} (hdraws : draws.Unit) :
    (feed.round draws).Legal := by
  obtain ⟨hlast, hbid, hask⟩ := hdraws
  obtain ⟨hlo, hhi⟩ := h.lastPrice_mem hlast
  let drawn := generateLegalStatisticsFeed feed draws.statistics
  have hpositive : 0 < drawn.statisticsFeed.lowerPriceLimit := h.positive
  obtain ⟨hbids, hasks⟩ := quotes_mem hbid hask hpositive hlo hhi
  exact ⟨⟨le_min hlo h.low, min_le_left _ _⟩, ⟨le_max_left _ _, max_le hhi h.high⟩, hbids, hasks,
    h.turnover_round hlast⟩

end Feed.Quoted

/-- A legal feed is one that the next round can start from. -/
theorem Feed.Legal.quoted {feed : Feed} (h : feed.Legal)
    (hpositive : 0 < feed.statisticsFeed.lowerPriceLimit) : feed.Quoted :=
  ⟨hpositive, h.bid.1, h.bid.2.trans h.ask.1, h.ask.2, h.low.1, h.high.2, h.turnover⟩

theorem rounds_quoted (i : Nat) (feedCodeStartId : Int) {init : InitDraws} (hinit : init.Unit)
    {draws : List RoundDraws} (hdraws : ∀ d ∈ draws, d.Unit) :
    (rounds i feedCodeStartId init draws).Quoted := by
  induction draws using List.reverseRecOn with
  | nil => exact generateInitFeed_quoted i feedCodeStartId hinit
  | append_singleton draws d ih =>
      have hbefore := ih (fun d' hd' => hdraws d' (List.mem_append_left _ hd'))
      have hround := hdraws d (List.mem_append_right _ (List.mem_singleton_self d))
      unfold rounds at hbefore ⊢
      rw [List.foldl_append]
      exact (hbefore.legal_round hround).quoted hbefore.positive

/-- From any initial feed, after any number of rounds and whatever is drawn: the
next round gives a legal feed, with more turnover and one interval later. -/
theorem legal_feeds (i : Nat) (feedCodeStartId : Int) (init : InitDraws) (hinit : init.Unit)
    (draws : List RoundDraws) (hdraws : ∀ d ∈ draws, d.Unit) (n : Nat) (hn : n < draws.length) :
    (rounds i feedCodeStartId init (draws.take (n + 1))).Legal ∧
      (rounds i feedCodeStartId init (draws.take n)).Advances
        (rounds i feedCodeStartId init (draws.take (n + 1))) := by
  have hbefore : (rounds i feedCodeStartId init (draws.take n)).Quoted :=
    rounds_quoted i feedCodeStartId hinit (fun d hd => hdraws d (List.mem_of_mem_take hd))
  have hround : draws[n].Unit := hdraws _ (List.getElem_mem hn)
  have hnext : rounds i feedCodeStartId init (draws.take (n + 1)) =
      (rounds i feedCodeStartId init (draws.take n)).round draws[n] := by
    unfold rounds
    rw [← List.take_append_getElem hn, List.foldl_append]
    rfl
  rw [hnext]
  exact ⟨hbefore.legal_round hround, hbefore.advances_round hround⟩

/-- Two rounds that draw the ends of every interval. -/
def extremeRounds : List RoundDraws :=
  [⟨⟨1600000000500, 0, 0, 5, 7⟩, ⟨1600000000501, 0, 3, 0, 4, 5, 7⟩⟩,
    ⟨⟨1600000001000, 1, 9, 5, 7⟩, ⟨1600000001001, 1, 3, 1, 4, 5, 7⟩⟩]

theorem legal_feeds_extremes :
    (rounds 0 1000 ⟨1600000000000, 1, 3, 0, 4, 1, 5⟩ extremeRounds).Legal := by
  refine (legal_feeds 0 1000 ⟨1600000000000, 1, 3, 0, 4, 1, 5⟩ ?_ extremeRounds ?_ 1 ?_).1
  · simp [InitDraws.Unit, UnitDraw]
  · simp [extremeRounds, RoundDraws.Unit, UnitDraw]
  · decide

end OLog.Generator
