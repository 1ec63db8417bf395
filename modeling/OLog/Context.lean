import Mathlib.Data.String.Basic
import OLog.Message
import OLog.Lib.MinQueue

/-!
The state kept for each feedcode, and the map from feedcodes to it. The queue
is ordered by `feedcmp`, which makes the feed with the least exchange
timestamp the top. It is allocated on first use; before that it is empty.
-/

namespace OLog

open Lib

structure Context where
  queue : MinQueue FeedRef FeedRef.exchangeTimestamp
  expectTimestamp : Int
  preValue : Rat
  preVolume : Int

/-- What the fresh memory of a context holds in the members that its constructor
does not set. -/
structure ContextMemory where
  expectTimestamp : Int := 0
  preValue : Rat := 0
  preVolume : Int := 0

/-- `new Context()`. -/
def Context.fresh (memory : ContextMemory) : Context :=
  ⟨MinQueue.empty, memory.expectTimestamp, memory.preValue, memory.preVolume⟩

/-- What `exec` writes into the context that it has created for a feed. -/
def Context.initialise (context : Context) (sf : StatisticsFeed) : Context :=
  {context with
    expectTimestamp := sf.exchangeTimestamp
    preValue := if sf.turnoverValue > 0 then sf.turnoverValue else 0
    preVolume := if sf.turnoverVolume > 0 then sf.turnoverVolume else 0}

structure ContextMap where
  myMap : OrdMap String Context

namespace ContextMap

def empty : ContextMap := ⟨OrdMap.empty⟩

def getContext (cm : ContextMap) (feedcode : String) : Option Context :=
  cm.myMap.get? feedcode

def has (cm : ContextMap) (feedcode : String) : Bool :=
  (cm.getContext feedcode).isSome

/-- An update of the object that `getContext` returned a pointer to. -/
def put (cm : ContextMap) (feedcode : String) (context : Context) : ContextMap :=
  ⟨cm.myMap.insert feedcode context⟩

def create (cm : ContextMap) (memory : ContextMemory) (feedcode : String) : ContextMap :=
  cm.put feedcode (Context.fresh memory)

theorem getContext_put (cm : ContextMap) (feedcode other : String) (context : Context) :
    (cm.put feedcode context).getContext other =
      if other = feedcode then some context else cm.getContext other :=
  OrdMap.get?_insert _ _ _ _

@[simp] theorem getContext_put_self (cm : ContextMap) (feedcode : String)
    (context : Context) : (cm.put feedcode context).getContext feedcode = some context := by
  simp [getContext_put]

end ContextMap

end OLog
