import OLog.Alert
import OLog.Message

/-!
`ValidityProcessor`: it looks at each Price feed by itself and describes it in
one record, which it marks as a warning if prices or volumes make no sense.
-/

namespace OLog

open Lib

structure ValidityProcessor where
  res : ProRes

namespace ValidityProcessor

def fresh : ValidityProcessor := ⟨ProRes.fresh⟩

/-- The bound `1e15` on prices and volumes. -/
def limit : Nat := 10 ^ 15

def invalidPrice (pf : PriceFeed) : Prop :=
  pf.bidPrice ≥ pf.askPrice ∨ pf.bidPrice ≤ 0 ∨ pf.bidPrice ≥ limit ∨
    pf.askPrice ≤ 0 ∨ pf.askPrice ≥ limit

def invalidVolume (pf : PriceFeed) : Prop :=
  pf.bidVolume < 0 ∨ pf.bidVolume > limit ∨ pf.askVolume < 0 ∨ pf.askVolume > limit

instance (pf : PriceFeed) : Decidable (invalidPrice pf) := by
  unfold invalidPrice
  infer_instance

instance (pf : PriceFeed) : Decidable (invalidVolume pf) := by
  unfold invalidVolume
  infer_instance

def logText (pf : PriceFeed) : String :=
  (if invalidPrice pf then "Invalid price " else "") ++
    (if invalidVolume pf then "Invalid volume" else "")

/-- Clears the result and resets the code, then describes a Price feed; the
record is pushed even if there is nothing to warn about. -/
def exec (self : ValidityProcessor) (message : MyMessage) : Except Fault ValidityProcessor :=
  let res := {self.res.clear with code := Status.ok}
  match message.type with
  | .price =>
      match message.feed with
      | .object _ (.price pf) =>
          let log := logText pf
          let res := if log = "" then res else {res with code := Status.warn}
          pure ⟨res.push (.validity pf.feedcode pf.exchangeTimestamp pf.bidPrice pf.askPrice
            pf.bidVolume pf.askVolume log)⟩
      | _ => throw .badCast
  | .statistics => pure ⟨res⟩
  | _ => pure ⟨res⟩

/-- On a message that carries no Price feed there is nothing to say. -/
theorem exec_statistics (self : ValidityProcessor) {message : MyMessage}
    (htype : message.type = .statistics) : self.exec message = .ok ⟨⟨[], .ok⟩⟩ := by
  unfold exec
  rw [htype]
  rfl

end ValidityProcessor

end OLog
