import OLog.Lib.IStream

/-!
The records the monitor works on, and how they are read from the text of a
log line. Both feeds are filled field by field, in the order of the log, from
a stream in which the separating commas have become blanks.
-/

namespace OLog

open Lib

inductive Status where
  | ok
  | error
  | warn
  deriving DecidableEq, Repr

inductive Feedtype where
  | none
  | statistics
  | price
  /-- No enumerator: a number that uninitialised memory may hold. -/
  | other (raw : Nat)
  deriving DecidableEq, Repr

/-- Every member is zero, or the empty string, until `build` fills it;
`timestamp` is not among the members that `build` fills. -/
structure StatisticsFeed where
  timestamp : Int := 0
  feedcode : String := ""
  instrumentId : Int := 0
  highPrice : Rat := 0
  lowPrice : Rat := 0
  openingPrice : Rat := 0
  closingPrice : Rat := 0
  closingPriceType : String := ""
  lastPrice : Rat := 0
  lastVolume : Int := 0
  turnoverValue : Rat := 0
  turnoverVolume : Int := 0
  turnoverTradeCount : Int := 0
  settlementPrice : Rat := 0
  streamId : Int := 0
  eventTime : Int := 0
  upperPriceLimit : Rat := 0
  lowerPriceLimit : Rat := 0
  openInterest : Int := 0
  exchangeTimestamp : Int := 0
  deriving DecidableEq, Repr

structure PriceFeed where
  timestamp : Int := 0
  feedcode : String := ""
  instrumentId : Int := 0
  sequence : Int := 0
  bidPrice : Rat := 0
  bidVolume : Int := 0
  bidCount : Int := 0
  askPrice : Rat := 0
  askVolume : Int := 0
  askCount : Int := 0
  lastTradeTick : Int := 0
  streamId : Int := 0
  eventTime : Int := 0
  exchangeTimestamp : Int := 0
  deriving DecidableEq, Repr

/-- The members in the order of the extraction chain. -/
def StatisticsFeed.layout : List (StreamField StatisticsFeed) :=
  [⟨.word, feedcode, fun v feed => {feed with feedcode := v}⟩,
   ⟨.int64, instrumentId, fun v feed => {feed with instrumentId := v}⟩,
   ⟨.double, highPrice, fun v feed => {feed with highPrice := v}⟩,
   ⟨.double, lowPrice, fun v feed => {feed with lowPrice := v}⟩,
   ⟨.double, openingPrice, fun v feed => {feed with openingPrice := v}⟩,
   ⟨.double, closingPrice, fun v feed => {feed with closingPrice := v}⟩,
   ⟨.word, closingPriceType, fun v feed => {feed with closingPriceType := v}⟩,
   ⟨.double, lastPrice, fun v feed => {feed with lastPrice := v}⟩,
   ⟨.int32, lastVolume, fun v feed => {feed with lastVolume := v}⟩,
   ⟨.double, turnoverValue, fun v feed => {feed with turnoverValue := v}⟩,
   ⟨.int32, turnoverVolume, fun v feed => {feed with turnoverVolume := v}⟩,
   ⟨.uint32, turnoverTradeCount, fun v feed => {feed with turnoverTradeCount := v}⟩,
   ⟨.double, settlementPrice, fun v feed => {feed with settlementPrice := v}⟩,
   ⟨.uint32, streamId, fun v feed => {feed with streamId := v}⟩,
   ⟨.int64, eventTime, fun v feed => {feed with eventTime := v}⟩,
   ⟨.double, upperPriceLimit, fun v feed => {feed with upperPriceLimit := v}⟩,
   ⟨.double, lowerPriceLimit, fun v feed => {feed with lowerPriceLimit := v}⟩,
   ⟨.int64, openInterest, fun v feed => {feed with openInterest := v}⟩,
   ⟨.int64, exchangeTimestamp, fun v feed => {feed with exchangeTimestamp := v}⟩]

def PriceFeed.layout : List (StreamField PriceFeed) :=
  [⟨.word, feedcode, fun v feed => {feed with feedcode := v}⟩,
   ⟨.int64, instrumentId, fun v feed => {feed with instrumentId := v}⟩,
   ⟨.uint32, sequence, fun v feed => {feed with sequence := v}⟩,
   ⟨.double, bidPrice, fun v feed => {feed with bidPrice := v}⟩,
   ⟨.int32, bidVolume, fun v feed => {feed with bidVolume := v}⟩,
   ⟨.uint32, bidCount, fun v feed => {feed with bidCount := v}⟩,
   ⟨.double, askPrice, fun v feed => {feed with askPrice := v}⟩,
   ⟨.int32, askVolume, fun v feed => {feed with askVolume := v}⟩,
   ⟨.uint32, askCount, fun v feed => {feed with askCount := v}⟩,
   ⟨.uint32, lastTradeTick, fun v feed => {feed with lastTradeTick := v}⟩,
   ⟨.uint32, streamId, fun v feed => {feed with streamId := v}⟩,
   ⟨.int64, eventTime, fun v feed => {feed with eventTime := v}⟩,
   ⟨.int64, exchangeTimestamp, fun v feed => {feed with exchangeTimestamp := v}⟩]

/-- The body shared by the two `build` functions: commas become blanks, the
members are extracted in order, and the result is `1` if that threw. -/
def buildFrom {σ : Type} (round : Rat → Rat) (layout : List (StreamField σ)) (body : List Char)
    (feed : σ) : Int × σ :=
  let blanked := body.map (fun c => if c = ',' then ' ' else c)
  let (feed, _, thrown) := extractAll round layout feed (IStream.ofText blanked)
  (if thrown then 1 else 0, feed)

theorem buildFrom_invariant {σ : Type} {I : σ → Prop} (round : Rat → Rat)
    (layout : List (StreamField σ)) (body : List Char) (feed : σ)
    (hset : ∀ field ∈ layout, ∀ text o, I o → I (field.set (field.kind.scan round text).value o))
    (hfeed : I feed) : I (buildFrom round layout body feed).2 :=
  extractAll_invariant round layout feed
    (IStream.ofText (body.map (fun c => if c = ',' then ' ' else c))) hset hfeed

def StatisticsFeed.build (round : Rat → Rat) (feed : StatisticsFeed) (body : String) :
    Int × StatisticsFeed :=
  buildFrom round layout body.toList feed

def PriceFeed.build (round : Rat → Rat) (feed : PriceFeed) (body : String) : Int × PriceFeed :=
  buildFrom round layout body.toList feed

/-- The feed that `build` makes of a text, in a fresh object. -/
def StatisticsFeed.ofRecord (round : Rat → Rat) (record : String) : StatisticsFeed :=
  (build round {} record).2

def PriceFeed.ofRecord (round : Rat → Rat) (record : String) : PriceFeed :=
  (build round {} record).2

end OLog
