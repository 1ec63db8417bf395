import Mathlib.Data.Int.Bitwise
import OLog.Feed
import OLog.Lib.Printf

/-!
The script that produces the logs. For each instrument a thread writes one
Statistics and one Price record every half second into the instrument's log.
On schedules of their own some records are dropped, delayed or falsified, and
each such event is noted in a second log, `error_...`. Between the records
there may be noise.

What `random` and `time` return is an input. The script's record classes have
the members of the monitor's, except `timestamp`, which stays zero here.
-/

namespace OLog.Generator

open Lib

/-- One of the schedules in `conf.json`; `amount` is `dropAmount`, `delayAmount`
or `errorAmount`, and `interval` accordingly. -/
structure FaultConf where
  feedCodeStartId : Int
  instrumentAmount : Int
  amount : Int
  interval : Int

structure Conf where
  instrumentAmount : Nat
  messageType : Int
  enableNoise : Bool
  feedCodeStartId : Int
  timeLength : Int
  drop : FaultConf
  delay : FaultConf
  delayTimeLength : Int
  errorTurnover : FaultConf
  errorBidAsk : FaultConf
  errorPrice : FaultConf
  errorVolume : FaultConf

def priceTag : Int := 0x1
def statisticsTag : Int := 0x2

/-- `random.uniform(a, b)`, where `random()` gives `u`. -/
def uniform (a b u : Rat) : Rat := a + (b - a) * u

/-- `random.randint(a, b)`, from a number without bound. -/
def randint (a b : Int) (raw : Nat) : Int := a + raw % (b - a + 1)

def streamIDUpBound : Int := 1000
def openInterestUpBound : Int := 1000

/-- `nextDropTimestamp` with `currentDropTime`, and its siblings. The times of
events are in tenths of a second. -/
structure Schedule where
  next : Int := 0
  current : Int := 0

structure Feed where
  statisticsFeed : StatisticsFeed
  priceFeed : PriceFeed
  feedCodeId : Int
  drop : Schedule := {}
  delay : Schedule := {}
  nextResendTimestamp : Int := 0
  errorTurnover : Schedule := {}
  errorBidAsk : Schedule := {}
  errorPrice : Schedule := {}
  errorVolume : Schedule := {}

/-- What `generateLegalStatisticsFeed` takes from clock and draws. -/
structure StatisticsDraws where
  timestamp : Int
  lastPrice : Rat
  lastVolume : Nat
  streamId : Nat
  eventTime : Nat

def generateLegalStatisticsFeed (feed : Feed) (draws : StatisticsDraws) : Feed :=
  let last := feed.statisticsFeed
  let lastPrice := uniform
    (max last.lowerPriceLimit (feed.priceFeed.bidPrice * (99 / 100)))
    (min last.upperPriceLimit (feed.priceFeed.askPrice * (101 / 100))) draws.lastPrice
  let lastVolume := randint 1 10 draws.lastVolume
  {feed with statisticsFeed := {
    feedcode := last.feedcode
    instrumentId := last.instrumentId
    lastPrice := lastPrice
    lastVolume := lastVolume
    highPrice := max lastPrice last.highPrice
    lowPrice := min lastPrice last.lowPrice
    openingPrice := last.openingPrice
    closingPrice := last.closingPrice
    closingPriceType := last.closingPriceType
    turnoverValue := last.turnoverValue + lastPrice * lastVolume
    turnoverVolume := last.turnoverVolume + lastVolume
    settlementPrice := last.settlementPrice
    streamId := randint 0 streamIDUpBound draws.streamId
    eventTime := draws.timestamp * 1000000 + randint 0 999999 draws.eventTime
    upperPriceLimit := last.upperPriceLimit
    lowerPriceLimit := last.lowerPriceLimit
    openInterest := last.openInterest
    exchangeTimestamp := last.exchangeTimestamp + 500000000}}

/-- What `generateLegalPriceFeed` takes from clock and draws. -/
structure PriceDraws where
  timestamp : Int
  bidPrice : Rat
  bidVolume : Nat
  askPrice : Rat
  askVolume : Nat
  streamId : Nat
  eventTime : Nat

def generateLegalPriceFeed (feed : Feed) (draws : PriceDraws) : Feed :=
  let current := feed.statisticsFeed
  let last := feed.priceFeed
  {feed with priceFeed := {
    feedcode := last.feedcode
    instrumentId := last.instrumentId
    bidPrice := uniform (max current.lowerPriceLimit (current.lastPrice * (99 / 100)))
      current.lastPrice draws.bidPrice
    bidVolume := randint 1 30 draws.bidVolume
    askPrice := uniform current.lastPrice
      (min current.upperPriceLimit (current.lastPrice * (101 / 100))) draws.askPrice
    askVolume := randint 1 30 draws.askVolume
    streamId := randint 0 streamIDUpBound draws.streamId
    eventTime := draws.timestamp * 1000000 + randint 0 999999 draws.eventTime
    exchangeTimestamp := current.exchangeTimestamp}}

/-- A record with the millisecond time at which it is written. -/
inductive Record where
  | statistics (timestamp : Int) (sf : StatisticsFeed)
  | price (timestamp : Int) (pf : PriceFeed)
  deriving DecidableEq

/-- The texts for the members, in the order of the format. -/
def statisticsFields (sf : StatisticsFeed) : List String :=
  [sf.feedcode, showInt sf.instrumentId, showFixed sf.highPrice, showFixed sf.lowPrice,
    showFixed sf.openingPrice, showFixed sf.closingPrice, sf.closingPriceType,
    showFixed sf.lastPrice, showInt sf.lastVolume, showFixed sf.turnoverValue,
    showInt sf.turnoverVolume, showInt sf.turnoverTradeCount, showFixed sf.settlementPrice,
    showInt sf.streamId, showInt sf.eventTime, showFixed sf.upperPriceLimit,
    showFixed sf.lowerPriceLimit, showInt sf.openInterest, showInt sf.exchangeTimestamp]

def priceFields (pf : PriceFeed) : List String :=
  [pf.feedcode, showInt pf.instrumentId, showInt pf.sequence, showFixed pf.bidPrice,
    showInt pf.bidVolume, showInt pf.bidCount, showFixed pf.askPrice, showInt pf.askVolume,
    showInt pf.askCount, showInt pf.lastTradeTick, showInt pf.streamId, showInt pf.eventTime,
    showInt pf.exchangeTimestamp]

/-- `resultStr` -/
def Record.text : Record → String
  | .statistics timestamp sf =>
      showInt timestamp ++ " [Info  ] [DATA_RECORDER] [Data] LIMon_StatisticsFeed," ++
        ",".intercalate (statisticsFields sf) ++ "\n"
  | .price timestamp pf =>
      showInt timestamp ++ " [Info  ] [DATA_RECORDER] [Data] LIMon_PriceFeed," ++
        ",".intercalate (priceFields pf) ++ "\n"

/-- What a record that is not simply written is marked with in the second log. -/
inductive Mark where
  | drop
  | delay
  | errorTurnover
  | errorBidAsk
  | errorPrice
  | errorVolume
  deriving DecidableEq, Repr

def Mark.text : Mark → String
  | .drop => "drop:"
  | .delay => "delay:"
  | .errorTurnover => "errorTurnover:"
  | .errorBidAsk => "errorBidAsk:"
  | .errorPrice => "errorPrice:"
  | .errorVolume => "errorVolume:"

inductive Line where
  | record (result : Record)
  | noise (timestamp : Int) (message : String)
  | marked (mark : Mark) (result : Record)
  | resend (exchangeTimestamp : Int)
  deriving DecidableEq

def Line.text : Line → String
  | .record result => result.text
  | .noise timestamp message => showInt timestamp ++ message
  | .marked mark result => mark.text ++ result.text
  | .resend exchangeTimestamp => "resend:" ++ showInt exchangeTimestamp ++ "\n"

/-- `file` and `errorFile`. -/
inductive LogFile where
  | own
  | error
  deriving DecidableEq, Repr

/-- One call of `write`. -/
structure Write where
  file : LogFile
  line : Line
  deriving DecidableEq

def inRange (feedCodeId startFeedCodeId amount : Int) : Prop :=
  feedCodeId ≥ startFeedCodeId ∧ feedCodeId < startFeedCodeId + amount

instance (feedCodeId startFeedCodeId amount : Int) :
    Decidable (inRange feedCodeId startFeedCodeId amount) := by
  unfold inRange
  infer_instance

/-- The condition under which an event of a schedule takes place. -/
def due (conf : FaultConf) (schedule : Schedule) (feedCodeId exchangeTimestamp : Int) : Prop :=
  inRange feedCodeId conf.feedCodeStartId conf.instrumentAmount ∧
    schedule.current < conf.amount ∧ exchangeTimestamp / 100000000 = schedule.next

instance (conf : FaultConf) (schedule : Schedule) (feedCodeId exchangeTimestamp : Int) :
    Decidable (due conf schedule feedCodeId exchangeTimestamp) := by
  unfold due
  infer_instance

def writeStatisticsFeed (feed : Feed) (conf : Conf) (timestamp : Int) : List Write :=
  let sf := feed.statisticsFeed
  let errorTurnover :=
    due conf.errorTurnover feed.errorTurnover feed.feedCodeId sf.exchangeTimestamp
  let result : Record :=
    if errorTurnover then
      .statistics timestamp {sf with turnoverValue := 0, turnoverVolume := 0}
    else .statistics timestamp sf
  if conf.messageType.land statisticsTag ≠ 0 then
    if due conf.drop feed.drop feed.feedCodeId sf.exchangeTimestamp then
      [⟨.error, .marked .drop result⟩]
    else if due conf.delay feed.delay feed.feedCodeId sf.exchangeTimestamp then
      [⟨.error, .marked .delay result⟩]
    else if errorTurnover then
      [⟨.error, .marked .errorTurnover result⟩, ⟨.own, .record result⟩]
    else
      [⟨.own, .record result⟩]
  else []

def writePriceFeed (feed : Feed) (conf : Conf) (timestamp : Int) : List Write :=
  let pf := feed.priceFeed
  let errorBidAsk := due conf.errorBidAsk feed.errorBidAsk feed.feedCodeId pf.exchangeTimestamp
  let errorPrice := due conf.errorPrice feed.errorPrice feed.feedCodeId pf.exchangeTimestamp
  let errorVolume := due conf.errorVolume feed.errorVolume feed.feedCodeId pf.exchangeTimestamp
  let result : Record :=
    if errorBidAsk then
      .price timestamp {pf with bidPrice := pf.askPrice, askPrice := pf.bidPrice}
    else if errorPrice then
      .price timestamp {pf with bidPrice := 0, askPrice := 0 - pf.bidPrice}
    else if errorVolume then
      .price timestamp {pf with bidVolume := 0 - pf.bidVolume, askVolume := 0 - pf.askVolume}
    else .price timestamp pf
  if conf.messageType.land priceTag ≠ 0 then
    if due conf.drop feed.drop feed.feedCodeId pf.exchangeTimestamp then
      [⟨.error, .marked .drop result⟩]
    else if due conf.delay feed.delay feed.feedCodeId pf.exchangeTimestamp then
      [⟨.error, .marked .delay result⟩]
    else if errorBidAsk then
      [⟨.error, .marked .errorBidAsk result⟩, ⟨.own, .record result⟩]
    else if errorPrice then
      [⟨.error, .marked .errorPrice result⟩, ⟨.own, .record result⟩]
    else if errorVolume then
      [⟨.error, .marked .errorVolume result⟩, ⟨.own, .record result⟩]
    else
      [⟨.own, .record result⟩]
  else []

/-- `list` in `generateRandomData`. -/
def alphabet : List Char :=
  (List.range' 65 26).map Char.ofNat ++ (List.range' 97 26).map Char.ofNat ++
    (List.range' 48 10).map Char.ofNat ++ ['!', '@', '#', '$', '%', '&', '_']

/-- `random.sample(list, 10)` -/
structure Sample where
  chars : List Char
  length : chars.length = 10
  nodup : chars.Nodup
  subset : ∀ c ∈ chars, c ∈ alphabet

/-- `' [%-6s]' % (typeStr)` for the two types. -/
def messageTypes : List String := [" [Info  ]", " [Debug ]"]

def moduleLevel : Nat := 3
def moduleType : Nat := 5

/-- One more module behind each text. -/
def nextLevel (last : List String) (i : Nat) : List String :=
  last.flatMap (fun tempStr => (List.range moduleType).map (fun j =>
    tempStr ++ " [LogModule_" ++ toString i ++ "_" ++ toString j ++ "]"))

/-- `finalSet` and `LastSet` after the loop over the levels. -/
def moduleSets : List String × List String :=
  (List.range moduleLevel).foldl (fun (final, last) i =>
    let now := nextLevel last i
    (final ++ now, now)) ([], messageTypes)

/-- `RandomLogSet`, from the words that are drawn for each text. -/
def generateRandomData (words : String → List Sample) : List String :=
  moduleSets.1.map (fun tempStr =>
    (words tempStr).foldl (fun r word => r ++ " " ++ String.ofList word.chars) tempStr ++ "\n")

/-- An index beyond the list writes nothing; there is none. -/
def getRandomData (randomLogSet : List String) (timestamp : Int) (raw : Nat) : List Write :=
  (randomLogSet[(randint 0 (randomLogSet.length - 1) raw).toNat]?).toList.map
    (fun message => ⟨.own, .noise timestamp message⟩)

/-- What one pass through the loop takes from clock and draws. `nowTime` is read
at the end of the pass. -/
structure PassInputs where
  statistics : StatisticsDraws
  statisticsTime : Int
  price : PriceDraws
  priceTime : Int
  resendStatisticsTime : Int
  resendPriceTime : Int
  noiseTime : Int
  noiseIndex : Nat
  nowTime : Int

structure ThreadState where
  feed : Feed
  delayQueue : List Feed
  writes : List Write

/-- Move a schedule on if its event took place. -/
def Schedule.advance (schedule : Schedule) (conf : FaultConf)
    (feedCodeId exchangeTimestamp : Int) : Schedule :=
  if due conf schedule feedCodeId exchangeTimestamp then
    ⟨schedule.next + conf.interval * 10, schedule.current + 1⟩
  else schedule

namespace ThreadState

/-- The two records of the next half second. -/
def emit (s : ThreadState) (conf : Conf) (inputs : PassInputs) : ThreadState :=
  let feed := generateLegalStatisticsFeed s.feed inputs.statistics
  let statistics := writeStatisticsFeed feed conf inputs.statisticsTime
  let feed := generateLegalPriceFeed feed inputs.price
  {s with feed := feed
          writes := s.writes ++ (statistics ++ writePriceFeed feed conf inputs.priceTime)}

def countDrop (s : ThreadState) (conf : Conf) : ThreadState :=
  {s with feed := {s.feed with
    drop := s.feed.drop.advance conf.drop s.feed.feedCodeId
      s.feed.statisticsFeed.exchangeTimestamp}}

/-- A delayed feed is put aside as it is at this point. -/
def countDelay (s : ThreadState) (conf : Conf) : ThreadState :=
  if due conf.delay s.feed.delay s.feed.feedCodeId s.feed.statisticsFeed.exchangeTimestamp then
    let feed := {s.feed with
      delay := ⟨s.feed.delay.next + conf.delay.interval * 10, s.feed.delay.current + 1⟩}
    {s with feed := feed, delayQueue := s.delayQueue ++ [feed]}
  else s

def resend (s : ThreadState) (conf : Conf) (inputs : PassInputs) : ThreadState :=
  if inRange s.feed.feedCodeId conf.delay.feedCodeStartId conf.delay.instrumentAmount ∧
      s.feed.statisticsFeed.exchangeTimestamp / 100000000 = s.feed.nextResendTimestamp then
    match s.delayQueue with
    | [] => s
    | delayed :: delayQueue =>
        let writes := ⟨.error, .resend delayed.statisticsFeed.exchangeTimestamp⟩ ::
          (writeStatisticsFeed delayed conf inputs.resendStatisticsTime ++
            writePriceFeed delayed conf inputs.resendPriceTime)
        let next :=
          if delayQueue.isEmpty then s.feed.nextResendTimestamp
          else s.feed.nextResendTimestamp + conf.delay.interval * 10
        {s with feed := {s.feed with nextResendTimestamp := next}
                delayQueue := delayQueue
                writes := s.writes ++ writes}
  else s

def countErrors (s : ThreadState) (conf : Conf) : ThreadState :=
  let feed := s.feed
  let exchangeTimestamp := feed.statisticsFeed.exchangeTimestamp
  {s with feed := {feed with
    errorTurnover :=
      feed.errorTurnover.advance conf.errorTurnover feed.feedCodeId exchangeTimestamp
    errorBidAsk := feed.errorBidAsk.advance conf.errorBidAsk feed.feedCodeId exchangeTimestamp
    errorPrice := feed.errorPrice.advance conf.errorPrice feed.feedCodeId exchangeTimestamp
    errorVolume :=
      feed.errorVolume.advance conf.errorVolume feed.feedCodeId exchangeTimestamp}}

/-- One pass through the loop in `generateData`. -/
def pass (s : ThreadState) (conf : Conf) (randomLogSet : List String) (nowTime : Int)
    (inputs : PassInputs) : ThreadState :=
  let sendTime := nowTime / 100
  if sendTime > s.feed.statisticsFeed.exchangeTimestamp / 100000000 + 5 then
    let s := s.emit conf inputs
    let s := s.countDrop conf
    let s := s.countDelay conf
    let s := s.resend conf inputs
    s.countErrors conf
  else if conf.enableNoise then
    {s with writes :=
      s.writes ++ getRandomData randomLogSet inputs.noiseTime inputs.noiseIndex}
  else s

/-- The passes as long as time is left. -/
def loop (conf : Conf) (randomLogSet : List String) (endTime : Int) :
    List PassInputs → Int → ThreadState → ThreadState
  | [], _, s => s
  | inputs :: rest, nowTime, s =>
      if nowTime < endTime then
        loop conf randomLogSet endTime rest inputs.nowTime
          (s.pass conf randomLogSet nowTime inputs)
      else s

end ThreadState

/-- The schedules at the start of a thread. The one for exchanged prices starts
with the interval of the turnover errors. -/
def startSchedules (feed : Feed) (conf : Conf) (nowTime : Int) : Feed :=
  let base := nowTime / 500 * 5
  let delay := {feed.delay with next := base + conf.delay.interval * 10}
  {feed with
    drop := {feed.drop with next := base + conf.drop.interval * 10}
    delay := delay
    nextResendTimestamp := delay.next + conf.delayTimeLength * 10
    errorTurnover := {feed.errorTurnover with next := base + conf.errorTurnover.interval * 10}
    errorBidAsk := {feed.errorBidAsk with next := base + conf.errorTurnover.interval * 10}
    errorPrice := {feed.errorPrice with next := base + conf.errorPrice.interval * 10}
    errorVolume := {feed.errorVolume with next := base + conf.errorVolume.interval * 10}}

/-- The thread of one instrument. -/
def generateData (feed : Feed) (conf : Conf) (randomLogSet : List String) (nowTime : Int)
    (passes : List PassInputs) : ThreadState :=
  let endTime := nowTime + conf.timeLength * 1000
  ThreadState.loop conf randomLogSet endTime passes nowTime
    ⟨startSchedules feed conf nowTime, [], []⟩

/-- What `generateInitFeeds` takes from clock and draws for one instrument. -/
structure InitDraws where
  timestamp : Int
  settlementPrice : Rat
  openInterest : Nat
  bidPrice : Rat
  bidVolume : Nat
  askPrice : Rat
  askVolume : Nat

def closingPriceType : String := "CLOSING_PRICE_PREVIOUS_TRADING_DAY"

def instrumentId : Int := 2306359659839382000

/-- The feed of instrument `i`. -/
def generateInitFeed (i : Nat) (feedCodeStartId : Int) (draws : InitDraws) : Feed :=
  let feedcode := "rb" ++ showInt (i + feedCodeStartId)
  let settlementPrice := uniform 1000 9000 draws.settlementPrice
  let bidPrice := uniform (settlementPrice * (99 / 100)) (settlementPrice * (101 / 100))
    draws.bidPrice
  { statisticsFeed := {
      feedcode := feedcode
      instrumentId := instrumentId + i
      settlementPrice := settlementPrice
      lowerPriceLimit := settlementPrice * (9 / 10)
      upperPriceLimit := settlementPrice * (11 / 10)
      -- `sys.maxsize`
      lowPrice := 2 ^ 63 - 1
      highPrice := 0
      openingPrice := settlementPrice
      closingPrice := settlementPrice
      closingPriceType := closingPriceType
      openInterest := randint 0 openInterestUpBound draws.openInterest
      exchangeTimestamp := draws.timestamp / 500 * 500000000}
    priceFeed := {
      feedcode := feedcode
      instrumentId := instrumentId + i
      bidPrice := bidPrice
      bidVolume := randint 1 30 draws.bidVolume
      askPrice := uniform bidPrice (bidPrice * (101 / 100)) draws.askPrice
      askVolume := randint 1 30 draws.askVolume}
    feedCodeId := i + feedCodeStartId }

/-- What a thread takes from clock and draws. -/
structure ThreadInputs where
  init : InitDraws
  nowTime : Int
  passes : List PassInputs

/-- Instrument `i` of `main`. Threads share nothing but the noise, so each is
described by itself. -/
def thread (conf : Conf) (words : String → List Sample) (i : Nat) (inputs : ThreadInputs) :
    ThreadState :=
  generateData (generateInitFeed i conf.feedCodeStartId inputs.init) conf
    (generateRandomData words) inputs.nowTime inputs.passes

/-- The content of one of a thread's two logs. -/
def ThreadState.content (s : ThreadState) (file : LogFile) : String :=
  String.join ((s.writes.filter (fun w => w.file = file)).map (fun w => w.line.text))

end OLog.Generator
