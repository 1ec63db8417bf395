import Mathlib.Logic.Function.Basic
import OLog.Execution

/-!
Processors that share one context map, call by call. `has`, `create` and
`getContext` each hold the map's mutex, and what `exec` does with a context is
done under the context's own, so these are the steps that can interleave.
Contexts are objects here and the map holds pointers: `create` always stores a
new object, also over one that another processor has stored since `has` was
called. And a new context is in the map before its members are set, so another
processor can receive a feed in it first.
-/

namespace OLog

open Lib

/-- Where a processor is in `exec`. -/
inductive Phase where
  | idle
  /-- `has` returned false, and `create` is next. -/
  | absent (sf : FeedRef)
  | created (sf : FeedRef)
  /-- The context is to be initialised. -/
  | opening (sf : FeedRef) (context : Nat)
  /-- The second `getContext` is next. -/
  | present (sf : FeedRef)
  /-- The feed is to be received. -/
  | holding (sf : FeedRef) (context : Nat)

namespace Phase

/-- The pointer that a processor works with, and the feed it does so for. -/
def pointer? : Phase → Option (FeedRef × Nat)
  | .opening sf context => some (sf, context)
  | .holding sf context => some (sf, context)
  | _ => none

/-- The feedcode that a processor is occupied with. -/
def feedcode? : Phase → Option String
  | .idle => none
  | .absent sf => some sf.feed.feedcode
  | .created sf => some sf.feed.feedcode
  | .opening sf _ => some sf.feed.feedcode
  | .present sf => some sf.feed.feedcode
  | .holding sf _ => some sf.feed.feedcode

/-- The feedcode for which a processor is between a call of `has` that found nothing and
the end of the section in which it initialises the context. -/
def opens? : Phase → Option String
  | .absent sf => some sf.feed.feedcode
  | .created sf => some sf.feed.feedcode
  | .opening sf _ => some sf.feed.feedcode
  | _ => none

end Phase

structure Processors (ι : Type) where
  heap : Heap
  /-- Every context ever created; a pointer is a position. Of a context that is `none`
  no member has been set or read yet. -/
  contexts : List (Option Context)
  myMap : OrdMap String Nat
  self : ι → DeficiencyProcessor
  phase : ι → Phase
  /-- The feeds received so far. No step reads this. -/
  received : List StatisticsFeed

namespace Processors

/-- A processor begins with a message, or takes its next step. `memory` is what the
fresh memory of a context turns out to hold, if it is this step that reads it first. -/
inductive Action (ι : Type) where
  | begin (i : ι) (incoming : Incoming)
  | next (i : ι) (memory : ContextMemory)

variable {ι : Type}

def start : Processors ι :=
  ⟨Heap.empty, [], OrdMap.empty, fun _ => DeficiencyProcessor.fresh, fun _ => .idle, []⟩

def has (s : Processors ι) (feedcode : String) : Bool := (s.myMap.get? feedcode).isSome

/-- `myMap[feedcode] = new Context();` -/
def create (s : Processors ι) (feedcode : String) : Processors ι :=
  {s with contexts := s.contexts ++ [none]
          myMap := s.myMap.insert feedcode s.contexts.length}

def getContext (s : Processors ι) (feedcode : String) : Except Fault Nat :=
  match s.myMap.get? feedcode with
  | none => throw .nullContext
  | some context => pure context

def load (s : Processors ι) (memory : ContextMemory) (context : Nat) : Except Fault Context :=
  match s.contexts[context]? with
  | none => throw .nullContext
  | some c => pure (c.getD (Context.fresh memory))

def store (s : Processors ι) (context : Nat) (c : Context) : Processors ι :=
  {s with contexts := s.contexts.set context (some c)}

/-- What is recorded for a feedcode. -/
def recorded (s : Processors ι) (feedcode : String) : Option Context :=
  (s.myMap.get? feedcode).bind (fun context => s.contexts[context]?.join)

section Steps

variable [DecidableEq ι]

def goTo (s : Processors ι) (i : ι) (phase : Phase) : Processors ι :=
  {s with phase := Function.update s.phase i phase}

/-- The message store and the processor's own members after a piece of `exec`. -/
def put (s : Processors ι) (i : ι) (e : ExecState) : Processors ι :=
  {s with heap := e.heap, self := Function.update s.self i e.self}

/-- A message is consumed, and `exec` runs up to and including `has`. -/
def begin (s : Processors ι) (i : ι) (incoming : Incoming) : Except Fault (Processors ι) :=
  let message := s.heap.brk
  let e : ExecState := ⟨(s.heap.alloc incoming.toMessage).2, ContextMap.empty, s.self i⟩
  let e := e.setRes e.self.res.clear
  match incoming.feed with
  | .price _ => pure (s.put i e)
  | .statistics feed => do
      let sf : FeedRef := ⟨message + 1, feed⟩
      let e ← DeficiencyProcessor.enter e message sf
      pure ((s.put i e).goTo i (if s.has feed.feedcode then .present sf else .absent sf))

def next (s : Processors ι) (i : ι) (memory : ContextMemory) : Except Fault (Processors ι) :=
  match s.phase i with
  | .idle => pure s
  | .absent sf => pure ((s.create sf.feed.feedcode).goTo i (.created sf))
  | .created sf => do
      let context ← s.getContext sf.feed.feedcode
      pure (s.goTo i (.opening sf context))
  | .opening sf context => do
      let c ← s.load memory context
      pure ((s.store context (c.initialise sf.feed)).goTo i (.present sf))
  | .present sf => do
      let context ← s.getContext sf.feed.feedcode
      pure (s.goTo i (.holding sf context))
  | .holding sf context => do
      let c ← s.load memory context
      let e ← DeficiencyProcessor.receive
        ⟨s.heap, ContextMap.empty.put sf.feed.feedcode c, s.self i⟩ c sf
      let c := (e.contextMap.getContext sf.feed.feedcode).getD c
      let s := {s with received := s.received ++ [sf.feed]}
      pure (((s.put i e).store context c).goTo i .idle)

/-- A processor only begins when it is done with the message before. -/
def step (s : Processors ι) : Action ι → Except Fault (Processors ι)
  | .begin i incoming =>
      match s.phase i with
      | .idle => s.begin i incoming
      | _ => pure s
  | .next i memory => s.next i memory

def run (actions : List (Action ι)) : Except Fault (Processors ι) := actions.foldlM step start

end Steps

/-- The map, the contexts and the feeds received. -/
structure Same (s t : Processors ι) : Prop where
  myMap : t.myMap = s.myMap
  contexts : t.contexts = s.contexts
  received : t.received = s.received

inductive Moves [DecidableEq ι] (s t : Processors ι) : Action ι → Prop where
  | stay {action : Action ι} (hsame : Same s t) (hphase : t.phase = s.phase) : Moves s t action
  | has {i : ι} {incoming : Incoming} {sf : StatisticsFeed} (hidle : s.phase i = .idle)
      (hfeed : incoming.feed = .statistics sf) (hsame : Same s t)
      (hphase : t.phase = Function.update s.phase i
        (if s.has sf.feedcode then .present ⟨s.heap.brk + 1, sf⟩
          else .absent ⟨s.heap.brk + 1, sf⟩)) :
      Moves s t (.begin i incoming)
  | create {i : ι} {memory : ContextMemory} {sf : FeedRef} (habsent : s.phase i = .absent sf)
      (hmap : t.myMap = s.myMap.insert sf.feed.feedcode s.contexts.length)
      (hcontexts : t.contexts = s.contexts ++ [none]) (hreceived : t.received = s.received)
      (hphase : t.phase = Function.update s.phase i (.created sf)) : Moves s t (.next i memory)
  | locate {i : ι} {memory : ContextMemory} {sf : FeedRef} {context : Nat}
      (hcreated : s.phase i = .created sf) (hget : s.myMap.get? sf.feed.feedcode = some context)
      (hsame : Same s t) (hphase : t.phase = Function.update s.phase i (.opening sf context)) :
      Moves s t (.next i memory)
  | initialise {i : ι} {memory : ContextMemory} {sf : FeedRef} {context : Nat} (c : Context)
      (hopening : s.phase i = .opening sf context) (hmap : t.myMap = s.myMap)
      (hcontexts : t.contexts = s.contexts.set context (some c))
      (hreceived : t.received = s.received)
      (hphase : t.phase = Function.update s.phase i (.present sf)) : Moves s t (.next i memory)
  | fetch {i : ι} {memory : ContextMemory} {sf : FeedRef} {context : Nat}
      (hpresent : s.phase i = .present sf) (hget : s.myMap.get? sf.feed.feedcode = some context)
      (hsame : Same s t) (hphase : t.phase = Function.update s.phase i (.holding sf context)) :
      Moves s t (.next i memory)
  | receive {i : ι} {memory : ContextMemory} {sf : FeedRef} {context : Nat} (c after : Context)
      (hholding : s.phase i = .holding sf context) (hload : s.load memory context = .ok c)
      (hview : after.view = (c.view.receive sf.feed).1) (hmap : t.myMap = s.myMap)
      (hcontexts : t.contexts = s.contexts.set context (some after))
      (hreceived : t.received = s.received ++ [sf.feed])
      (hphase : t.phase = Function.update s.phase i .idle) : Moves s t (.next i memory)

section Inversion

variable {s t : Processors ι} {i : ι} {context : Nat}

theorem getContext_eq_ok {feedcode : String} (h : s.getContext feedcode = .ok context) :
    s.myMap.get? feedcode = some context := by
  unfold getContext at h
  split at h
  · cases h
  · rename_i found hfound
    cases h
    exact hfound

theorem recorded_of_get? {code : String} (hget : s.myMap.get? code = some context) :
    s.recorded code = s.contexts[context]?.join := by
  rw [Processors.recorded, hget, Option.bind_some]

variable [DecidableEq ι]

theorem next_moves {memory : ContextMemory} (h : s.next i memory = .ok t) :
    Moves s t (.next i memory) := by
  unfold next at h
  split at h
  · cases h
    exact .stay ⟨rfl, rfl, rfl⟩ rfl
  · rename_i sf hphase
    cases h
    exact .create hphase rfl rfl rfl rfl
  · rename_i sf hphase
    obtain ⟨context, hcontext, hdone⟩ := bind_eq_ok.mp h
    cases hdone
    exact .locate hphase (getContext_eq_ok hcontext) ⟨rfl, rfl, rfl⟩ rfl
  · rename_i sf context hphase
    obtain ⟨c, _, hdone⟩ := bind_eq_ok.mp h
    cases hdone
    exact .initialise (c.initialise sf.feed) hphase rfl rfl rfl rfl
  · rename_i sf hphase
    obtain ⟨context, hcontext, hdone⟩ := bind_eq_ok.mp h
    cases hdone
    exact .fetch hphase (getContext_eq_ok hcontext) ⟨rfl, rfl, rfl⟩ rfl
  · rename_i sf context hphase
    obtain ⟨c, hload, hrest⟩ := bind_eq_ok.mp h
    obtain ⟨e, hreceive, hdone⟩ := bind_eq_ok.mp hrest
    obtain ⟨after, hafter, hview⟩ := (receive_tracks hreceive).2
      (ContextMap.getContext_put_self _ _ _)
    simp only [hafter, Option.getD_some] at hdone
    cases hdone
    exact .receive c after hphase hload hview rfl rfl rfl rfl

theorem step_moves {action : Action ι} (h : s.step action = .ok t) : Moves s t action := by
  cases action with
  | next i memory => exact next_moves h
  | begin i incoming =>
      unfold step at h
      cases hphase : s.phase i with
      | idle =>
          simp only [hphase] at h
          unfold begin at h
          cases hfeed : incoming.feed with
          | price pf =>
              simp only [hfeed] at h
              cases h
              exact .stay ⟨rfl, rfl, rfl⟩ rfl
          | statistics sf =>
              simp only [hfeed] at h
              obtain ⟨e, _, hdone⟩ := bind_eq_ok.mp h
              cases hdone
              exact .has hphase hfeed ⟨rfl, rfl, rfl⟩ rfl
      | _ =>
          simp only [hphase] at h
          cases h
          exact .stay ⟨rfl, rfl, rfl⟩ rfl

end Inversion

section Runs

variable [DecidableEq ι]

theorem run_concat {past : List (Action ι)} {s : Processors ι} (h : run past = .ok s)
    (action : Action ι) : run (past ++ [action]) = s.step action := by
  unfold run at h ⊢
  rw [foldlM_concat, h, ok_bind]

/-- Beginning with a message cannot fail. -/
theorem begin_ok (s : Processors ι) (i : ι) {incoming : Incoming} {sf : StatisticsFeed}
    (hidle : s.phase i = .idle) (hfeed : incoming.feed = .statistics sf) :
    ∃ e, s.step (.begin i incoming) = .ok ((s.put i e).goTo i
      (if s.has sf.feedcode then .present ⟨s.heap.brk + 1, sf⟩
        else .absent ⟨s.heap.brk + 1, sf⟩)) := by
  have hmsg : (s.heap.alloc incoming.toMessage).2.get? s.heap.brk =
      some (incoming.toMessage (s.heap.brk + 1)) := Heap.alloc_get?_new _ _
  let cleared : ExecState := ExecState.setRes
    ⟨(s.heap.alloc incoming.toMessage).2, ContextMap.empty, s.self i⟩ (s.self i).res.clear
  obtain ⟨e, he⟩ := DeficiencyProcessor.enter_withMap (s := cleared) hmsg ⟨s.heap.brk + 1, sf⟩
  refine ⟨e.withMap ContextMap.empty, ?_⟩
  simp only [step, hidle, begin, hfeed]
  exact congrArg (· >>= _) (he ContextMap.empty)

theorem next_absent {s : Processors ι} {i : ι} {sf : FeedRef} (h : s.phase i = .absent sf)
    (memory : ContextMemory) :
    s.step (.next i memory) = .ok ((s.create sf.feed.feedcode).goTo i (.created sf)) := by
  simp only [step, next, h]
  rfl

theorem next_created {s : Processors ι} {i : ι} {sf : FeedRef} {context : Nat}
    (h : s.phase i = .created sf) (hget : s.myMap.get? sf.feed.feedcode = some context)
    (memory : ContextMemory) :
    s.step (.next i memory) = .ok (s.goTo i (.opening sf context)) := by
  simp only [step, next, h, getContext, hget]
  rfl

theorem next_opening {s : Processors ι} {i : ι} {sf : FeedRef} {context : Nat} {c : Option Context}
    (h : s.phase i = .opening sf context) (hcontext : s.contexts[context]? = some c)
    (memory : ContextMemory) :
    s.step (.next i memory) = .ok ((s.store context
      ((c.getD (Context.fresh memory)).initialise sf.feed)).goTo i (.present sf)) := by
  simp only [step, next, h, load, hcontext]
  rfl

theorem next_present {s : Processors ι} {i : ι} {sf : FeedRef} {context : Nat}
    (h : s.phase i = .present sf) (hget : s.myMap.get? sf.feed.feedcode = some context)
    (memory : ContextMemory) :
    s.step (.next i memory) = .ok (s.goTo i (.holding sf context)) := by
  simp only [step, next, h, getContext, hget]
  rfl

end Runs

end Processors

end OLog
