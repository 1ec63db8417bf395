import OLog.EventLoop

/-!
What becomes of a payload that no feed can be built from. The constructor of
`MyMessage` sets the type only where it builds a feed, and it looks at the
seventh character of the message type without asking how long the text is.
Both processors cast the feed pointer on the type alone.
-/

namespace OLog

open Lib

/-- The type says what the feed pointer points to, or that it is not to be used. -/
def MyMessage.Tagged (msg : MyMessage) : Prop :=
  (msg.type = .price ∧ ∃ addr pf, msg.feed = .object addr (.price pf)) ∨
    (msg.type = .statistics ∧ ∃ addr sf, msg.feed = .object addr (.statistics sf)) ∨
    msg.type = .none

/-- Neither processor records an alert about the message or changes a context. -/
def MyMessage.Inert (msg : MyMessage) : Prop :=
  (∀ (s : ExecState) (m : Nat), s.heap.get? m = some msg →
    ∃ s', DeficiencyProcessor.exec s m = .ok s' ∧ s'.self.res.json = [] ∧
      s'.contextMap = s.contextMap) ∧
  ∀ v : ValidityProcessor, ∃ v', v.exec msg = .ok v' ∧ v'.res.json = []

theorem inert_of_none {msg : MyMessage} (h : msg.type = .none) : msg.Inert := by
  refine ⟨?_, ?_⟩
  · intro s m hmsg
    have hderef : (s.setRes s.self.res.clear).heap.deref m = .ok msg := Heap.deref_of_get? hmsg
    refine ⟨s.setRes s.self.res.clear, ?_, rfl, rfl⟩
    rw [DeficiencyProcessor.exec_eq]
    simp only [hderef, ok_bind, h]
  · intro v
    refine ⟨⟨{v.res.clear with code := Status.ok}⟩, ?_, rfl⟩
    unfold ValidityProcessor.exec
    rw [h]
    rfl

namespace JsonReader

variable {Value : Type} (reader : JsonReader Value)

/-- A text from which a feed can be built. -/
def Usable (payload : String) : Prop :=
  ∃ msgType detail, reader.Reads payload msgType detail ∧
    (msgType.toList[6]? = some 'P' ∨ msgType.toList[6]? = some 'S')

/-- The message type is too short, and the memory behind it happens to hold one
of the two letters. -/
def Misread (beyond : Nat → Char) (payload : String) : Prop :=
  ∃ msgType detail, reader.Reads payload msgType detail ∧ msgType.toList.length < 7 ∧
    (charAt beyond msgType.toList 6 = 'P' ∨ charAt beyond msgType.toList 6 = 'S')

/-- The message made of the payload has a type that says what it holds, and none
if it holds nothing. -/
def Handled (payload : String) (msg : MyMessage) : Prop :=
  msg.Tagged ∧ (¬ reader.Usable payload → msg.type = .none ∧ msg.Inert)

end JsonReader

section Construct

variable {Value : Type} (round : Rat → Rat) (reader : JsonReader Value) (beyond : Nat → Char)
  (feed₀ : FeedSlot) (type₀ : Feedtype) (feedAddr : Nat) (message : KafkaMessage)

/-- Wherever one of the two letters is read, a feed of its kind is built. -/
theorem construct_letter {payload msgType detail : String}
    (h : reader.Reads payload msgType detail)
    (hletter : charAt beyond msgType.toList 6 = 'P' ∨ charAt beyond msgType.toList 6 = 'S') :
    (MyMessage.construct round reader beyond feed₀ type₀ feedAddr message payload).Tagged ∧
      (MyMessage.construct round reader beyond feed₀ type₀ feedAddr message payload).type ≠
        .none := by
  rcases hletter with hp | hs
  · rw [construct_price round reader beyond feed₀ type₀ feedAddr message h hp]
    exact ⟨Or.inl ⟨rfl, _, _, rfl⟩, by simp [Incoming.toMessage, Feed.type]⟩
  · rw [construct_statistics round reader beyond feed₀ type₀ feedAddr message h hs]
    exact ⟨Or.inr (Or.inl ⟨rfl, _, _, rfl⟩), by simp [Incoming.toMessage, Feed.type]⟩

/-- One of the two letters is read only from a usable text or behind a short one. -/
theorem usable_or_misread {payload msgType detail : String}
    (h : reader.Reads payload msgType detail) {c : Char} (hc : c = 'P' ∨ c = 'S')
    (hletter : charAt beyond msgType.toList 6 = c) :
    reader.Usable payload ∨ reader.Misread beyond payload := by
  cases hat : msgType.toList[6]? with
  | some c' =>
      rw [charAt_of_getElem? beyond hat] at hletter
      subst hletter
      refine Or.inl ⟨msgType, detail, h, ?_⟩
      rcases hc with rfl | rfl
      · exact Or.inl hat
      · exact Or.inr hat
  | none =>
      have hshort : msgType.toList.length < 7 := by
        have := List.getElem?_eq_none_iff.mp hat
        omega
      subst hletter
      exact Or.inr ⟨msgType, detail, h, hshort, hc⟩

/-- A payload from which no feed can be built gives a message of type `NONE`,
which both processors ignore, exactly if the fresh memory held `NONE` and no
letter was read behind a short message type. -/
theorem unusable_payload_inert_iff (payload : String) :
    reader.Handled payload
        (MyMessage.construct round reader beyond feed₀ type₀ feedAddr message payload) ↔
      (reader.Usable payload ∨ type₀ = .none ∧ ¬ reader.Misread beyond payload) := by
  let msg := MyMessage.construct round reader beyond feed₀ type₀ feedAddr message payload
  by_cases husable : reader.Usable payload
  · obtain ⟨msgType, detail, hreads, hletter⟩ := husable
    have hread : charAt beyond msgType.toList 6 = 'P' ∨ charAt beyond msgType.toList 6 = 'S' :=
      hletter.imp (charAt_of_getElem? beyond) (charAt_of_getElem? beyond)
    have hbuilt := construct_letter round reader beyond feed₀ type₀ feedAddr message hreads hread
    have hagain : reader.Usable payload := ⟨msgType, detail, hreads, hletter⟩
    exact ⟨fun _ => Or.inl hagain, fun _ => ⟨hbuilt.1, fun hnot => absurd hagain hnot⟩⟩
  · by_cases hmisread : reader.Misread beyond payload
    · obtain ⟨msgType, detail, hreads, _, hletter⟩ := id hmisread
      have hbuilt :=
        construct_letter round reader beyond feed₀ type₀ feedAddr message hreads hletter
      constructor
      · rintro ⟨_, hnone⟩
        exact absurd (hnone husable).1 hbuilt.2
      · rintro (h | ⟨_, h⟩)
        · exact absurd h husable
        · exact absurd hmisread h
    · have hblank : msg = ⟨message, 0, feed₀, type₀⟩ := by
        apply construct_blank
        intro msgType detail hreads
        constructor
        · intro hp
          exact (usable_or_misread reader beyond hreads (Or.inl rfl) hp).elim husable hmisread
        · intro hs
          exact (usable_or_misread reader beyond hreads (Or.inr rfl) hs).elim husable hmisread
      have htype : msg.type = type₀ := by rw [hblank]
      constructor
      · rintro ⟨_, hnone⟩
        exact Or.inr ⟨htype ▸ (hnone husable).1, hmisread⟩
      · rintro (h | ⟨h, _⟩)
        · exact absurd h husable
        · have hnone : msg.type = .none := htype.trans h
          exact ⟨Or.inr (Or.inr hnone), fun _ => ⟨hnone, inert_of_none hnone⟩⟩

end Construct

/-- A reader that rejects every text. -/
def rejectingReader : JsonReader Unit := ⟨fun _ => none, fun _ _ => .error ()⟩

/-- A text that is not JSON, in memory that held `Statistics`. -/
def strayMessage : MyMessage :=
  MyMessage.construct nearestDouble rejectingReader (fun _ => ' ') .garbage .statistics 1
    ⟨"feed", 0, 0⟩ "not json"

/-- The message keeps its type, and `exec` casts a pointer that was never set. -/
theorem unusable_payload_executed :
    ¬ rejectingReader.Usable "not json" ∧ strayMessage.type = .statistics ∧
      ¬ strayMessage.Tagged ∧
      (DeficiencyProcessor.exec
        ⟨(Heap.empty.alloc (fun _ => strayMessage)).2, ContextMap.empty, DeficiencyProcessor.fresh⟩
        0).toOption.isNone = true := by
  refine ⟨?_, rfl, ?_, by decide⟩
  · rintro ⟨_, _, ⟨_, hparse, _⟩, _⟩
    cases hparse
  · rintro (⟨h, _⟩ | ⟨_, _, _, h⟩ | h) <;> cases h

end OLog
