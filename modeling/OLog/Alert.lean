import OLog.Feed
import OLog.Lib.Printf

/-!
The alerts that the processors record. An alert keeps the values that the
program passes to `sprintf`; `format` gives the string it pushes onto
`res.json`, where a `Char` stands for one byte.
-/

namespace OLog

open Lib

inductive Alert where
  | invalidTurnover (feedcode : String) (timestamp turnoverVolume : Int)
      (turnoverValue : Rat)
  | delay (feedcode : String) (timestamp : Int) (seconds : Rat)
  | monotonicity (feedcode : String) (timestamp turnoverVolume : Int)
      (turnoverValue : Rat)
  | miss (feedcode : String) (timestamp : Int)
  | validity (feedcode : String) (timestamp : Int) (bidPrice askPrice : Rat)
      (bidVolume askVolume : Int) (log : String)
  deriving DecidableEq, Repr

/-- `(et - sf->EXCHANGE_TIMESTAMP) / 1000000000.0`: the difference becomes a double
before it is divided. -/
def delaySeconds (nanoseconds : Int) : Rat :=
  nearestDouble (nearestDouble nanoseconds / 1000000000)

example : showFixed (delaySeconds 2500) = "0.000003" := by decide +kernel

/-- Which doubles of an alert have their sign bit set if they are zero. -/
structure ZeroSigns where
  turnoverValue : Bool := false
  bidPrice : Bool := false
  askPrice : Bool := false

/-- The format shared by the two turnover alerts. -/
def turnoverText (minus : Bool) (feedcode : String) (timestamp turnoverVolume : Int)
    (turnoverValue : Rat) (log : String) : String :=
  "\x7b\"FEEDCODE\":\"" ++ feedcode ++ "\", \"TIMESTAMP\":" ++ showInt timestamp ++
    ", \"TURNOVER_VOLUME\":" ++ showInt turnoverVolume ++
    ", \"TURNOVER_VALUE\":" ++ showDouble minus turnoverValue ++
    ", \"LOG\":\"" ++ log ++ "\"\x7d"

/-- What `sprintf` writes. A delay is positive, so its sign is known. -/
def Alert.format (minus : ZeroSigns) : Alert → String
  | .invalidTurnover feedcode timestamp volume value =>
      turnoverText minus.turnoverValue feedcode timestamp volume value
        "Invalid turnover value or turnover volume"
  | .delay feedcode timestamp seconds =>
      "\x7b\"FEEDCODE\":\"" ++ feedcode ++ "\", \"TIMESTAMP\": " ++ showInt timestamp ++
        ", \"LOG\":\"delay " ++ showFixed seconds ++ "s\"\x7d"
  | .monotonicity feedcode timestamp volume value =>
      turnoverText minus.turnoverValue feedcode timestamp volume value
        "Turnover value or turnover volume should be monotonically increase"
  | .miss feedcode timestamp =>
      "\x7b\"FEEDCODE\":\"" ++ feedcode ++ "\", \"TIMESTAMP\":" ++ showInt timestamp ++
        ", \"LOG\":\"" ++ "miss" ++ "\"\x7d"
  | .validity feedcode timestamp bidPrice askPrice bidVolume askVolume log =>
      "\x7b\"FEEDCODE\":\"" ++ feedcode ++ "\", \"TIMESTAMP\":" ++ showInt timestamp ++
        ", \"BID_PRICE\":" ++ showDouble minus.bidPrice bidPrice ++
        ", \"ASK_PRICE\":" ++ showDouble minus.askPrice askPrice ++
        ",\"BID_VOLUME\":" ++ showInt bidVolume ++ ", \"ASK_VOLUME\":" ++ showInt askVolume ++
        ", \"LOG\":\"" ++ log ++ "\"\x7d"

/-- The text if no stored zero has its sign bit set. -/
def Alert.text (alert : Alert) : String := alert.format {}

/-- The tick of a 'miss' alert. -/
def Alert.missTick? : Alert → Option Int
  | .miss _ timestamp => some timestamp
  | _ => none

def Alert.isMonotonicity : Alert → Bool
  | .monotonicity .. => true
  | _ => false

/-- `Process_result_`. -/
structure ProRes where
  json : List Alert
  code : Status

namespace ProRes

/-- The value-initialised result of a new processor. -/
def fresh : ProRes := ⟨[], .ok⟩

def clear (res : ProRes) : ProRes := {res with json := []}

def push (res : ProRes) (alert : Alert) : ProRes :=
  {res with json := res.json ++ [alert]}

/-- Set the code to `WARN` and push an alert. -/
def warn (res : ProRes) (alert : Alert) : ProRes :=
  ⟨res.json ++ [alert], .warn⟩

end ProRes

end OLog
