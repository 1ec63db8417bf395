import OLog.Feed
import OLog.Lib.OrdMap
import OLog.Lib.Runs

/-!
Consumed messages and the store that holds them. A `MyMessage` owns the feed
it was built from and counts the processors that still need it. Objects are
named by addresses, which are natural numbers; an address is never handed out
twice, so that an object and a later one are told apart even where the
allocator would reuse memory.

A use of a null, deleted, wrongly typed or uninitialised pointer is a `Fault`, and so
is a failed assertion.
-/

namespace OLog

open Lib

inductive Fault where
  /-- A lookup in `sf_to_m` produced a null message, which was then used. -/
  | nullMessage
  /-- A lookup in the context map produced a null context. -/
  | nullContext
  /-- A message was used, or deleted again, after it had been deleted. -/
  | danglingMessage
  /-- `assert(this->_live > 0)` failed. -/
  | liveAssertion
  /-- A feed pointer was cast to a type that it does not have. -/
  | badCast
  /-- The destructor deleted a feed pointer that the constructor had not set. -/
  | uninitialisedFeed
  deriving DecidableEq, Repr

/-- What identifies a message towards the broker. -/
structure KafkaMessage where
  topic : String
  partition : Int
  offset : Int
  deriving DecidableEq, Repr

inductive Feed where
  | statistics (sf : StatisticsFeed)
  | price (pf : PriceFeed)
  deriving DecidableEq, Repr

/-- The member `_feed`: a feed object, or whatever the fresh memory held. -/
inductive FeedSlot where
  | object (addr : Nat) (feed : Feed)
  | garbage
  deriving DecidableEq, Repr

structure MyMessage where
  message : KafkaMessage
  live : Nat
  feed : FeedSlot
  type : Feedtype
  deriving DecidableEq, Repr

/-- The constructor has built a feed. -/
def MyMessage.Built (message : MyMessage) : Prop := message.feed ≠ .garbage

instance (message : MyMessage) : Decidable message.Built := by
  unfold MyMessage.Built
  infer_instance

/-- A `StatisticsFeed*`. Feeds are not modified once they are built, so the
pointer is kept together with the record it points to. -/
structure FeedRef where
  addr : Nat
  feed : StatisticsFeed
  deriving DecidableEq, Repr

def FeedRef.exchangeTimestamp (r : FeedRef) : Int := r.feed.exchangeTimestamp

/-- What the JSON library offers to the constructor: parsing a text, and the
access `value[key].asString()`, which may throw. -/
structure JsonReader (Value : Type) where
  parse : String → Option Value
  memberAsString : Value → String → Except Unit String

/-- `text[i]` of a C++ string, whose characters are bytes: a `Char` stands for one
byte. They are followed by a zero, and what comes after that is `beyond`, memory that
the string does not own. -/
def charAt (beyond : Nat → Char) (text : List Char) (i : Nat) : Char :=
  match text[i]? with
  | some c => c
  | none => if i = text.length then '\x00' else beyond i

/-- `MyMessage::MyMessage`. The members `_feed` and `_type` keep the values
`feed₀` and `type₀` of the fresh memory on every way out that does not build a
feed. -/
def MyMessage.construct {Value : Type} (round : Rat → Rat) (reader : JsonReader Value)
    (beyond : Nat → Char) (feed₀ : FeedSlot) (type₀ : Feedtype) (feedAddr : Nat)
    (message : KafkaMessage) (payload : String) : MyMessage :=
  let blank : MyMessage := ⟨message, 0, feed₀, type₀⟩
  match reader.parse payload with
  | none => blank
  | some value =>
      match reader.memberAsString value "MessageType" with
      | .error _ => blank
      | .ok msgType =>
          match charAt beyond msgType.toList 6 with
          | 'P' =>
              match reader.memberAsString value "detail" with
              | .error _ => blank
              | .ok detail =>
                  let pf := (PriceFeed.build round {} detail).2
                  {blank with feed := .object feedAddr (.price pf), type := .price}
          | 'S' =>
              match reader.memberAsString value "detail" with
              | .error _ => blank
              | .ok detail =>
                  let sf := (StatisticsFeed.build round {} detail).2
                  {blank with feed := .object feedAddr (.statistics sf), type := .statistics}
          | _ => blank

/-- A consumed message whose payload parsed, with the feed built from it. -/
structure Incoming where
  message : KafkaMessage
  feed : Feed
  deriving DecidableEq, Repr

def Feed.type : Feed → Feedtype
  | .statistics _ => .statistics
  | .price _ => .price

/-- The object that the constructor makes of such a message. -/
def Incoming.toMessage (incoming : Incoming) (feedAddr : Nat) : MyMessage :=
  ⟨incoming.message, 0, .object feedAddr incoming.feed, incoming.feed.type⟩

/-- The payload is an object with these two strings in it. -/
def JsonReader.Reads {Value : Type} (reader : JsonReader Value) (payload msgType detail : String) :
    Prop :=
  ∃ value, reader.parse payload = some value ∧
    reader.memberAsString value "MessageType" = .ok msgType ∧
    reader.memberAsString value "detail" = .ok detail

theorem charAt_of_getElem? (beyond : Nat → Char) {text : List Char} {i : Nat} {c : Char}
    (h : text[i]? = some c) : charAt beyond text i = c := by
  simp [charAt, h]

section Construct

variable {Value : Type} (round : Rat → Rat) (reader : JsonReader Value) (beyond : Nat → Char)
  (feed₀ : FeedSlot) (type₀ : Feedtype) (feedAddr : Nat) (message : KafkaMessage)

/-- The feed of a message type `...S...` is what `build` makes of the detail,
whatever `build` returns. -/
theorem construct_statistics {payload msgType detail : String}
    (h : reader.Reads payload msgType detail) (hletter : charAt beyond msgType.toList 6 = 'S') :
    MyMessage.construct round reader beyond feed₀ type₀ feedAddr message payload =
      Incoming.toMessage ⟨message, .statistics (StatisticsFeed.build round {} detail).2⟩
        feedAddr := by
  obtain ⟨value, hparse, htype, hdetail⟩ := h
  simp [MyMessage.construct, hparse, htype, hletter, hdetail, Incoming.toMessage, Feed.type]

theorem construct_price {payload msgType detail : String}
    (h : reader.Reads payload msgType detail) (hletter : charAt beyond msgType.toList 6 = 'P') :
    MyMessage.construct round reader beyond feed₀ type₀ feedAddr message payload =
      Incoming.toMessage ⟨message, .price (PriceFeed.build round {} detail).2⟩ feedAddr := by
  obtain ⟨value, hparse, htype, hdetail⟩ := h
  simp [MyMessage.construct, hparse, htype, hletter, hdetail, Incoming.toMessage, Feed.type]

/-- On every other way out both members are left as they were. -/
theorem construct_blank {payload : String}
    (h : ∀ msgType detail, reader.Reads payload msgType detail →
      charAt beyond msgType.toList 6 ≠ 'P' ∧ charAt beyond msgType.toList 6 ≠ 'S') :
    MyMessage.construct round reader beyond feed₀ type₀ feedAddr message payload =
      ⟨message, 0, feed₀, type₀⟩ := by
  unfold MyMessage.construct
  dsimp only
  split
  · rfl
  · rename_i value hparse
    split
    · rfl
    · rename_i msgType htype
      have hletter : ∀ detail, reader.memberAsString value "detail" = .ok detail →
          charAt beyond msgType.toList 6 ≠ 'P' ∧ charAt beyond msgType.toList 6 ≠ 'S' :=
        fun detail hdetail => h msgType detail ⟨value, hparse, htype, hdetail⟩
      split
      · rename_i hp
        split
        · rfl
        · rename_i detail hdetail
          exact absurd hp (hletter detail hdetail).1
      · rename_i hs
        split
        · rfl
        · rename_i detail hdetail
          exact absurd hs (hletter detail hdetail).2
      · rfl

end Construct

structure Heap where
  objects : OrdMap Nat MyMessage
  /-- No object was ever placed at or above this address. -/
  brk : Nat

namespace Heap

def empty : Heap := ⟨OrdMap.empty, 0⟩

def get? (h : Heap) (m : Nat) : Option MyMessage := h.objects.get? m

def deref (h : Heap) (m : Nat) : Except Fault MyMessage :=
  match h.get? m with
  | some message => .ok message
  | none => .error .danglingMessage

def store (h : Heap) (m : Nat) (message : MyMessage) : Heap :=
  {h with objects := h.objects.insert m message}

/-- `new MyMessage(...)`: the message takes one address, its feed another. -/
def alloc (h : Heap) (make : Nat → MyMessage) : Nat × Heap :=
  (h.brk, ⟨h.objects.insert h.brk (make (h.brk + 1)), h.brk + 2⟩)

/-- `MyMessage::live`. -/
def live (h : Heap) (m : Nat) : Except Fault Heap := do
  let message ← h.deref m
  pure (h.store m {message with live := message.live + 1})

/-- `MyMessage::kill`. -/
def kill (h : Heap) (m : Nat) : Except Fault Heap := do
  let message ← h.deref m
  if 0 < message.live then
    pure (h.store m {message with live := message.live - 1})
  else
    throw .liveAssertion

/-- `delete` of a message. `~MyMessage` deletes `_feed`, whatever is there. -/
def delete (h : Heap) (m : Nat) : Except Fault Heap := do
  let message ← h.deref m
  match message.feed with
  | .object _ _ => pure {h with objects := h.objects.erase m}
  | .garbage => throw .uninitialisedFeed

theorem deref_of_get? {h : Heap} {m : Nat} {message : MyMessage}
    (hm : h.get? m = some message) : h.deref m = .ok message := by
  simp [deref, hm]

theorem get?_store (h : Heap) (m q : Nat) (message : MyMessage) :
    (h.store m message).get? q = if q = m then some message else h.get? q :=
  OrdMap.get?_insert _ _ _ _

theorem live_of_get? {h : Heap} {m : Nat} {message : MyMessage}
    (hm : h.get? m = some message) :
    h.live m = .ok (h.store m {message with live := message.live + 1}) := by
  simp only [live, deref_of_get? hm]
  rfl

theorem kill_of_get? {h : Heap} {m : Nat} {message : MyMessage}
    (hm : h.get? m = some message) (hlive : 0 < message.live) :
    h.kill m = .ok (h.store m {message with live := message.live - 1}) := by
  simp only [kill, deref_of_get? hm, ok_bind, hlive, if_true]
  rfl

theorem delete_of_get? {h : Heap} {m : Nat} {message : MyMessage}
    (hm : h.get? m = some message) (hbuilt : message.Built) :
    h.delete m = .ok {h with objects := h.objects.erase m} := by
  unfold MyMessage.Built at hbuilt
  simp only [delete, deref_of_get? hm, ok_bind]
  split
  · rfl
  · contradiction

theorem built_of_delete {h h' : Heap} {m : Nat} {message : MyMessage}
    (hm : h.get? m = some message) (hdelete : h.delete m = .ok h') : message.Built := by
  intro hgarbage
  simp only [delete, deref_of_get? hm, ok_bind, hgarbage] at hdelete
  cases hdelete

end Heap

/-- `MyMessage::free`. -/
def MyMessage.free (message : MyMessage) : Bool := message.live = 0

end OLog
