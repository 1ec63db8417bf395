import OLog.Probe
import OLog.Lib.Runs

/-!
`DeficiencyProcessor`: per feedcode it expects one Statistics feed every
`interval` nanoseconds, keeps feeds that arrive early in a queue until the
ones before them have come, reports feeds that come late, and gives a tick up
as missed when too many feeds wait behind it.
-/

namespace OLog

open Lib

/-- `INTERVAL`. -/
def interval : Int := 500000000

/-- A tick is given up when more feeds than this wait behind it. -/
def queueLimit : Nat := 120

structure DeficiencyProcessor where
  sfToM : OrdMap Nat Nat
  res : ProRes

def DeficiencyProcessor.fresh : DeficiencyProcessor := ⟨OrdMap.empty, ProRes.fresh⟩

/-- Everything one call of `exec` can read or change. -/
structure ExecState where
  heap : Heap
  contextMap : ContextMap
  self : DeficiencyProcessor

namespace ExecState

def setRes (s : ExecState) (res : ProRes) : ExecState :=
  {s with self := {s.self with res := res}}

def push (s : ExecState) (alert : Alert) : ExecState := s.setRes (s.self.res.push alert)

def warn (s : ExecState) (alert : Alert) : ExecState := s.setRes (s.self.res.warn alert)

def putContext (s : ExecState) (feedcode : String) (context : Context) : ExecState :=
  {s with contextMap := s.contextMap.put feedcode context}

/-- The same state with other contexts. -/
def withMap (s : ExecState) (cm : ContextMap) : ExecState := {s with contextMap := cm}

/-- `((MyMessage*)sf_to_m[x])->kill(); sf_to_m.erase(x);` -/
def release (s : ExecState) (x : Nat) : Except Fault ExecState :=
  match s.self.sfToM.get? x with
  | none => throw .nullMessage
  | some m => do
      let heap ← s.heap.kill m
      pure {s with heap := heap, self := {s.self with sfToM := s.self.sfToM.erase x}}

end ExecState

namespace DeficiencyProcessor

/-- The continuity check compares the arriving feed with the stored pair. -/
def turnoverBelow (sf : StatisticsFeed) (context : Context) : Prop :=
  sf.turnoverValue < context.preValue ∨ sf.turnoverVolume < context.preVolume

instance (sf : StatisticsFeed) (context : Context) : Decidable (turnoverBelow sf context) := by
  unfold turnoverBelow
  infer_instance

/-- The context of a feedcode's first feed. Nothing reads what the fresh memory held. -/
def createContext (s : ExecState) (sf : StatisticsFeed) : ExecState :=
  let s := {s with contextMap := s.contextMap.create {} sf.feedcode}
  s.putContext sf.feedcode ((Context.fresh {}).initialise sf)

end DeficiencyProcessor

namespace Probe

variable {m : Type → Type} [Monad m] (probe : Probe m)

def compute (value : Int) : m Int := do
  probe.effect (.computes value)
  pure (probe.fit value)

/-- `((MyMessage*)sf_to_m[sf_pq->top()])->kill();
sf_to_m.erase(sf_pq->top()); sf_pq->pop();` -/
def releaseTop (top : FeedRef) (s : ExecState) : m ExecState := do
  probe.effect (.read .queue)
  let s ← probe.lift (s.release top.addr)
  probe.effect (.read .queue)
  probe.effect (.write .queue)
  pure s

/-- `tops` are the feeds of which one is the top of the queue. -/
def reportContinuity (sf : FeedRef) (tops : List FeedRef) (context : Context) (s : ExecState) :
    m (Context × ExecState) := do
  let alert := .monotonicity sf.feed.feedcode sf.feed.timestamp
    sf.feed.turnoverVolume sf.feed.turnoverValue
  probe.report ⟨tops.map (fun top => .feed top.feed), alert⟩
  pure (context, s.push alert)

/-- The arriving feed is compared with the stored pair, its volume only if its value
is not below. -/
def detectContinuity (sf : FeedRef) (tops : List FeedRef) (context : Context) (s : ExecState) :
    m (Context × ExecState) := do
  probe.effect (.read .preValue)
  if sf.feed.turnoverValue < context.preValue then
    probe.reportContinuity sf tops context s
  else do
    probe.effect (.read .preVolume)
    if sf.feed.turnoverVolume < context.preVolume then
      probe.reportContinuity sf tops context s
    else do
      probe.effect (.write .preValue)
      probe.effect (.write .preVolume)
      pure ({context with preValue := sf.feed.turnoverValue
                          preVolume := sf.feed.turnoverVolume}, s)

/-- The drain loop. `waiting` is what is left of the queue, top first, and `et` the
loop's copy of the expected timestamp. The way out with feeds left unlocks the
context. -/
def drain (sf : FeedRef) : (waiting : List FeedRef) →
    waiting.Pairwise (KeyLE FeedRef.exchangeTimestamp) → Int → Context → ExecState →
    m (Int × Context × ExecState)
  | [], hsorted, et, context, s => do
      probe.effect (.read .queue)
      pure (et, {context with queue := ⟨[], hsorted⟩}, s)
  | top :: rest, hsorted, et, context, s => do
      -- the size, then the top
      probe.effect (.read .queue)
      probe.effect (.read .queue)
      let t := top.exchangeTimestamp
      if t = et then do
        let tops := (top :: rest).filter (fun r => r.exchangeTimestamp = t)
        let (context, s) ← probe.detectContinuity sf tops context s
        let s ← probe.releaseTop top s
        let et ← probe.compute (et + interval)
        drain sf rest hsorted.of_cons et context s
      else if t < et then do
        let s ← probe.releaseTop top s
        drain sf rest hsorted.of_cons et context s
      else do
        probe.effect .unlock
        pure (et, {context with queue := ⟨top :: rest, hsorted⟩}, s)

/-- The end of the case, after the loop. -/
def afterDrain (feedcode : String) (context : Context) (s : ExecState) : m ExecState := do
  probe.effect (.write .expectTimestamp)
  probe.effect (.read .queue)
  if context.queue.size > queueLimit then do
    probe.effect (.read .expectTimestamp)
    let alert := .miss feedcode context.expectTimestamp
    probe.report ⟨[.tick feedcode context.expectTimestamp], alert⟩
    -- ignore and continue
    probe.effect (.read .expectTimestamp)
    let next ← probe.compute (context.expectTimestamp + interval)
    probe.effect (.write .expectTimestamp)
    probe.effect .unlock
    pure ((s.warn alert).putContext feedcode {context with expectTimestamp := next})
  else do
    probe.effect .unlock
    pure (s.putContext feedcode context)

/-- `et == sf->EXCHANGE_TIMESTAMP`. -/
def receiveOnTime (s : ExecState) (context : Context) (sf : FeedRef) : m ExecState := do
  let next ← probe.compute (context.expectTimestamp + interval)
  probe.effect (.write .expectTimestamp)
  let s := s.putContext sf.feed.feedcode {context with expectTimestamp := next}
  let s ← probe.lift (s.release sf.addr)
  probe.effect .unlock
  pure s

/-- `et > sf->EXCHANGE_TIMESTAMP`. -/
def receiveLate (s : ExecState) (context : Context) (sf : FeedRef) : m ExecState := do
  let delay ← probe.compute (context.expectTimestamp - sf.exchangeTimestamp)
  let alert := .delay sf.feed.feedcode sf.exchangeTimestamp (delaySeconds delay)
  probe.report ⟨[.feed sf.feed], alert⟩
  probe.effect .unlock
  pure (s.warn alert)

/-- The loop over the queue with the arriving feed in it. -/
def drainPushed (s : ExecState) (context : Context) (sf : FeedRef) :
    m (Int × Context × ExecState) :=
  probe.drain sf (context.queue.push sf).toList (context.queue.push sf).sorted
    context.expectTimestamp context s

def receiveEarly (s : ExecState) (context : Context) (sf : FeedRef) : m ExecState := do
  -- `getQueue()`, then `push`
  probe.effect (.read .queue)
  probe.effect (.write .queue)
  let (et, context, s) ← probe.drainPushed s context sf
  probe.afterDrain sf.feed.feedcode {context with expectTimestamp := et} s

/-- From the second `context->lock()` to the end of the case. -/
def receive (s : ExecState) (context : Context) (sf : FeedRef) : m ExecState := do
  probe.effect .lock
  probe.effect (.read .expectTimestamp)
  if context.expectTimestamp = sf.exchangeTimestamp then probe.receiveOnTime s context sf
  else if context.expectTimestamp > sf.exchangeTimestamp then probe.receiveLate s context sf
  else probe.receiveEarly s context sf

def createContext (s : ExecState) (sf : StatisticsFeed) : m ExecState := do
  probe.effect .lock
  probe.effect (.write .expectTimestamp)
  probe.effect (.write .preValue)
  probe.effect (.write .preVolume)
  probe.effect .unlock
  pure (DeficiencyProcessor.createContext s sf)

/-- The Statistics case of `exec` up to the call of `has`. -/
def enter (s : ExecState) (message : Nat) (sf : FeedRef) : m ExecState := do
  -- lock live
  let heap ← probe.lift (s.heap.live message)
  let s := {s with heap := heap
                   self := {s.self with sfToM := s.self.sfToM.insert sf.addr message}}
  if sf.feed.turnoverValue ≤ 0 ∨ sf.feed.turnoverVolume ≤ 0 then do
    let alert := .invalidTurnover sf.feed.feedcode sf.feed.timestamp
      sf.feed.turnoverVolume sf.feed.turnoverValue
    probe.report ⟨[.feed sf.feed], alert⟩
    pure (s.warn alert)
  else pure s

/-- The Statistics case of `exec`. -/
def execStatistics (s : ExecState) (message : Nat) (sf : FeedRef) : m ExecState := do
  let s ← probe.enter s message sf
  let s ← if s.contextMap.has sf.feed.feedcode then pure s else probe.createContext s sf.feed
  match s.contextMap.getContext sf.feed.feedcode with
  | none => probe.lift (throw .nullContext)
  | some context => probe.receive s context sf

/-- `DeficiencyProcessor::exec`. -/
def exec (s : ExecState) (message : Nat) : m ExecState := do
  let s := s.setRes s.self.res.clear
  let msg ← probe.lift (s.heap.deref message)
  match msg.type with
  | .price => pure s
  | .statistics =>
      match msg.feed with
      | .object addr (.statistics sf) => probe.execStatistics s message ⟨addr, sf⟩
      | _ => probe.lift (throw .badCast)
  | _ => pure s

end Probe

namespace DeficiencyProcessor

/-- Nothing is watched, and sums of timestamps are exact. -/
def plain : Probe (Except Fault) where
  lift x := x
  effect _ := .ok ()
  report _ := .ok ()
  fit := id

def drain (sf : FeedRef) (waiting : List FeedRef)
    (hsorted : waiting.Pairwise (KeyLE FeedRef.exchangeTimestamp)) (et : Int) (context : Context)
    (s : ExecState) : Except Fault (Int × Context × ExecState) :=
  plain.drain sf waiting hsorted et context s

def receive (s : ExecState) (context : Context) (sf : FeedRef) : Except Fault ExecState :=
  plain.receive s context sf

def enter (s : ExecState) (message : Nat) (sf : FeedRef) : Except Fault ExecState :=
  plain.enter s message sf

def execStatistics (s : ExecState) (message : Nat) (sf : FeedRef) : Except Fault ExecState :=
  plain.execStatistics s message sf

def exec (s : ExecState) (message : Nat) : Except Fault ExecState := plain.exec s message

theorem releaseTop_eq (top : FeedRef) (s : ExecState) :
    plain.releaseTop top s = s.release top.addr :=
  bind_pure (s.release top.addr)

theorem detectContinuity_eq (sf : FeedRef) (tops : List FeedRef) (context : Context)
    (s : ExecState) :
    plain.detectContinuity sf tops context s = .ok (if turnoverBelow sf.feed context then
      (context, s.push (.monotonicity sf.feed.feedcode sf.feed.timestamp
        sf.feed.turnoverVolume sf.feed.turnoverValue))
    else
      ({context with preValue := sf.feed.turnoverValue
                     preVolume := sf.feed.turnoverVolume}, s)) := by
  unfold turnoverBelow
  by_cases hvalue : sf.feed.turnoverValue < context.preValue
  · simp only [Probe.detectContinuity, hvalue, true_or, if_true]
    rfl
  · by_cases hvolume : sf.feed.turnoverVolume < context.preVolume
    · simp only [Probe.detectContinuity, hvalue, hvolume, or_true, if_true, if_false]
      rfl
    · simp only [Probe.detectContinuity, hvalue, hvolume, or_self, if_false]
      rfl

-- What the body says if nothing is watched.

theorem drain_nil (sf : FeedRef) (hsorted : [].Pairwise (KeyLE FeedRef.exchangeTimestamp))
    (et : Int) (context : Context) (s : ExecState) :
    drain sf [] hsorted et context s = .ok (et, {context with queue := ⟨[], hsorted⟩}, s) := rfl

theorem drain_cons (sf top : FeedRef) (rest : List FeedRef)
    (hsorted : (top :: rest).Pairwise (KeyLE FeedRef.exchangeTimestamp)) (et : Int)
    (context : Context) (s : ExecState) :
    drain sf (top :: rest) hsorted et context s =
      if top.exchangeTimestamp = et then
        let (context, s) :=
          if turnoverBelow sf.feed context then
            (context, s.push (.monotonicity sf.feed.feedcode sf.feed.timestamp
              sf.feed.turnoverVolume sf.feed.turnoverValue))
          else
            ({context with preValue := sf.feed.turnoverValue
                           preVolume := sf.feed.turnoverVolume}, s)
        s.release top.addr >>= drain sf rest hsorted.of_cons (et + interval) context
      else if top.exchangeTimestamp < et then
        s.release top.addr >>= drain sf rest hsorted.of_cons et context
      else .ok (et, {context with queue := ⟨top :: rest, hsorted⟩}, s) := by
  unfold drain
  rw [Probe.drain]
  simp only [detectContinuity_eq, releaseTop_eq]
  split_ifs <;> rfl

theorem receive_eq (s : ExecState) (context : Context) (sf : FeedRef) :
    receive s context sf =
      if context.expectTimestamp = sf.exchangeTimestamp then
        (s.putContext sf.feed.feedcode
          {context with expectTimestamp := context.expectTimestamp + interval}).release sf.addr
      else if context.expectTimestamp > sf.exchangeTimestamp then
        .ok (s.warn (.delay sf.feed.feedcode sf.exchangeTimestamp
          (delaySeconds (context.expectTimestamp - sf.exchangeTimestamp))))
      else
        drain sf (context.queue.push sf).toList (context.queue.push sf).sorted
            context.expectTimestamp context s >>= fun (et, context, s) =>
          if context.queue.size > queueLimit then
            .ok ((s.warn (.miss sf.feed.feedcode et)).putContext sf.feed.feedcode
              {context with expectTimestamp := et + interval})
          else .ok (s.putContext sf.feed.feedcode {context with expectTimestamp := et}) := by
  change (if _ then plain.receiveOnTime s context sf else if _ then plain.receiveLate s context sf
    else plain.receiveEarly s context sf) = _
  split_ifs
  · exact bind_pure (ExecState.release _ _)
  · rfl
  · change (drain _ _ _ _ _ _ >>= _) = _
    cases drain _ _ _ _ _ _ with
    | error f => rfl
    | ok out => rfl

theorem enter_eq (s : ExecState) (message : Nat) (sf : FeedRef) :
    enter s message sf = s.heap.live message >>= fun heap =>
      let s := {s with heap := heap
                       self := {s.self with sfToM := s.self.sfToM.insert sf.addr message}}
      .ok (if sf.feed.turnoverValue ≤ 0 ∨ sf.feed.turnoverVolume ≤ 0 then
        s.warn (.invalidTurnover sf.feed.feedcode sf.feed.timestamp
          sf.feed.turnoverVolume sf.feed.turnoverValue)
      else s) := by
  change (s.heap.live message >>= _) = _
  congr 1
  funext heap
  dsimp only
  split_ifs <;> rfl

theorem execStatistics_eq (s : ExecState) (m : Nat) (sf : FeedRef) :
    execStatistics s m sf = enter s m sf >>= fun s =>
      let s := if s.contextMap.has sf.feed.feedcode then s else createContext s sf.feed
      match s.contextMap.getContext sf.feed.feedcode with
      | none => throw .nullContext
      | some context => receive s context sf := by
  change (enter s m sf >>= _) = _
  congr 1
  funext entered
  cases entered.contextMap.has sf.feed.feedcode <;> rfl

theorem exec_eq (s : ExecState) (message : Nat) :
    exec s message = (s.setRes s.self.res.clear).heap.deref message >>= fun msg =>
      match msg.type with
      | .price => .ok (s.setRes s.self.res.clear)
      | .statistics =>
          match msg.feed with
          | .object addr (.statistics sf) =>
              execStatistics (s.setRes s.self.res.clear) message ⟨addr, sf⟩
          | _ => throw .badCast
      | _ => .ok (s.setRes s.self.res.clear) := rfl

/-- Entering with a message that is in the store cannot fail. -/
theorem enter_withMap {s : ExecState} {m : Nat} {msg : MyMessage}
    (hmsg : s.heap.get? m = some msg) (sf : FeedRef) :
    ∃ t : ExecState, ∀ cm, enter (s.withMap cm) m sf = .ok (t.withMap cm) := by
  let entered : ExecState :=
    {s with heap := s.heap.store m {msg with live := msg.live + 1}
            self := {s.self with sfToM := s.self.sfToM.insert sf.addr m}}
  refine ⟨if sf.feed.turnoverValue ≤ 0 ∨ sf.feed.turnoverVolume ≤ 0 then
    entered.warn (.invalidTurnover sf.feed.feedcode sf.feed.timestamp
      sf.feed.turnoverVolume sf.feed.turnoverValue) else entered, ?_⟩
  intro cm
  simp only [enter_eq, ExecState.withMap, Heap.live_of_get? hmsg, ok_bind]
  split_ifs <;> rfl

end DeficiencyProcessor

/-- A feed at tick `i` of a sample feedcode, with turnover `v`. -/
def sampleFeed (i v : Nat) : StatisticsFeed where
  feedcode := "rb1000"
  exchangeTimestamp := i * interval
  turnoverValue := v
  turnoverVolume := v

end OLog
