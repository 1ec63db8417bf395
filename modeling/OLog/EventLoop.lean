import OLog.Deficiency
import OLog.Validity

/-!
`EventLoop`. Its thread consumes a message, appends it to the queue of the
message's partition, and hands it to each processor in turn. Another thread
calls `store_offset` from time to time, which deletes messages from the front
of each partition's queue as long as no processor needs them, and commits the
last one. The steps are kept apart where the two threads can interleave:
`consume`, one `execNext` for each processor, and `poll`, after which the loop
starts over.
-/

namespace OLog

open Lib

/-- What the constructor of `MyMessage` makes of a consumed message: the feed
it built, if any; otherwise the member `_type` keeps the value `type₀` that
the fresh memory held. -/
structure Record where
  message : KafkaMessage
  feed : Option Feed
  type₀ : Feedtype

def Record.toMessage (record : Record) (feedAddr : Nat) : MyMessage :=
  match record.feed with
  | some feed => ⟨record.message, 0, .object feedAddr feed, feed.type⟩
  | none => ⟨record.message, 0, .garbage, record.type₀⟩

/-- A message that parses. -/
def Incoming.record (incoming : Incoming) : Record := ⟨incoming.message, some incoming.feed, .none⟩

/-- Every way out of the constructor gives a record. -/
theorem construct_record {Value : Type} (round : Rat → Rat) (reader : JsonReader Value)
    (beyond : Nat → Char) (type₀ : Feedtype) (feedAddr : Nat) (message : KafkaMessage)
    (payload : String) :
    ∃ feed, MyMessage.construct round reader beyond .garbage type₀ feedAddr message payload =
      Record.toMessage ⟨message, feed, type₀⟩ feedAddr := by
  have hblank : ∃ feed, (⟨message, 0, .garbage, type₀⟩ : MyMessage) =
      Record.toMessage ⟨message, feed, type₀⟩ feedAddr := ⟨none, rfl⟩
  unfold MyMessage.construct
  dsimp only
  split
  · exact hblank
  · split
    · exact hblank
    · split
      · split
        · exact hblank
        · exact ⟨some (.price _), rfl⟩
      · split
        · exact hblank
        · exact ⟨some (.statistics _), rfl⟩
      · exact hblank

inductive Processor where
  | deficiency (self : DeficiencyProcessor)
  | validity (self : ValidityProcessor)

namespace Processor

def exec (heap : Heap) (contextMap : ContextMap) (message : Nat) :
    Processor → Except Fault (Heap × ContextMap × Processor)
  | .deficiency self => do
      let s ← DeficiencyProcessor.exec ⟨heap, contextMap, self⟩ message
      pure (s.heap, s.contextMap, .deficiency s.self)
  | .validity self => do
      let self ← self.exec (← heap.deref message)
      pure (heap, contextMap, .validity self)

def getResult : Processor → ProRes
  | .deficiency self => self.res
  | .validity self => self.res

def deficiency? : Processor → Option DeficiencyProcessor
  | .deficiency self => some self
  | .validity _ => none

end Processor

/-- The loop and the objects it works on. In the middle of an iteration
`running` is the message at hand, `processed` are the processors that have
seen it, and `pending` those that have not. -/
structure EventLoop where
  heap : Heap
  contextMap : ContextMap
  processed : List Processor
  pending : List Processor
  running : Option Nat
  offset : OrdMap Int (List Nat)
  /-- Everything passed to `MyProducer::produce`. -/
  produced : List Alert
  /-- Everything passed to `MyConsumer::commit`. -/
  commits : List KafkaMessage

namespace EventLoop

def start (processors : List Processor) : EventLoop where
  heap := Heap.empty
  contextMap := ContextMap.empty
  processed := processors
  pending := []
  running := none
  offset := OrdMap.empty
  produced := []
  commits := []

/-- The member `processors`. -/
def processors (l : EventLoop) : List Processor := l.processed ++ l.pending

/-- The queue `offset[partition]`; `operator[]` creates an empty one. -/
def fifo (l : EventLoop) (partition : Int) : List Nat := (l.offset.get? partition).getD []

/-- `new MyMessage(message)` and `offset[message->partition()].push(...)`. -/
def consume (l : EventLoop) (record : Record) : EventLoop :=
  let (m, heap) := l.heap.alloc record.toMessage
  let partition := record.message.partition
  {l with
    heap := heap
    offset := l.offset.insert partition (l.fifo partition ++ [m])
    processed := []
    pending := l.processors
    running := some m}

/-- The body of the loop over the processors. -/
def execNext (l : EventLoop) : Except Fault EventLoop :=
  match l.running, l.pending with
  | some m, processor :: pending => do
      let (heap, contextMap, processor) ← processor.exec l.heap l.contextMap m
      let res := processor.getResult
      pure {l with
        heap := heap
        contextMap := contextMap
        processed := l.processed ++ [processor]
        pending := pending
        produced := if res.code ≠ .ok then l.produced ++ res.json else l.produced}
  | _, _ => pure l

/-- `myProducer->poll(0)` at the end of an iteration. -/
def poll (l : EventLoop) : EventLoop := {l with running := none}

/-- One iteration of `run`. -/
def iterate (l : EventLoop) (record : Record) : Except Fault EventLoop := do
  let l ← l.processors.foldlM (fun l _ => l.execNext) (l.consume record)
  pure l.poll

/-- The inner loop of `store_offset`: pops free messages from the front. Each
is deleted when the next one has been popped; the last one is still `cur`. -/
def popFree : List Nat → Option Nat → Heap → Except Fault (Option Nat × List Nat × Heap)
  | [], cur, heap => pure (cur, [], heap)
  | next :: rest, cur, heap => do
      let message ← heap.deref next
      if message.free then
        let heap ← match cur with
          | some cur => heap.delete cur
          | none => pure heap
        popFree rest (some next) heap
      else
        pure (cur, next :: rest, heap)

/-- `store_offset` for one partition. -/
def storePartition (l : EventLoop) (partition : Int) : Except Fault EventLoop := do
  let (cur, rest, heap) ← popFree (l.fifo partition) none l.heap
  let l := {l with heap := heap, offset := l.offset.insert partition rest}
  match cur with
  | none => pure l
  | some cur =>
      let message ← l.heap.deref cur
      let heap ← l.heap.delete cur
      pure {l with heap := heap, commits := l.commits ++ [message.message]}

def storeOffset (l : EventLoop) : Except Fault EventLoop :=
  l.offset.keys.foldlM storePartition l

end EventLoop

end OLog
