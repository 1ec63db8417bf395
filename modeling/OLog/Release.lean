import OLog.Drain

/-!
Releasing feeds. A feed that waits in a queue is owned by its message: the
map `sf_to_m` leads from the feed to the message, the message carries that
feed, and its live count is one. Releasing owned feeds therefore cannot fail,
and its effect on the message store and on the map is known exactly.
-/

namespace OLog

open Lib

/-- The Statistics feed that a message carries, as a pointer. -/
def MyMessage.ref? (msg : MyMessage) : Option FeedRef :=
  match msg.type, msg.feed with
  | .statistics, .object addr (.statistics sf) => some ⟨addr, sf⟩
  | _, _ => none

@[simp] theorem ref?_live (msg : MyMessage) (n : Nat) :
    MyMessage.ref? {msg with live := n} = msg.ref? := rfl

theorem toMessage_statistics_ref? (message : KafkaMessage) (sf : StatisticsFeed) (addr : Nat) :
    (Incoming.toMessage ⟨message, .statistics sf⟩ addr).ref? = some ⟨addr, sf⟩ := rfl

theorem toMessage_price_ref? (message : KafkaMessage) (pf : PriceFeed) (addr : Nat) :
    (Incoming.toMessage ⟨message, .price pf⟩ addr).ref? = none := rfl

/-- Addresses below the break, and no feed shared by two messages. -/
structure Heap.WF (h : Heap) : Prop where
  below : ∀ a msg, h.get? a = some msg → a < h.brk
  feed_below : ∀ a msg r, h.get? a = some msg → msg.ref? = some r → r.addr < h.brk
  feed_inj : ∀ a b msg msg' r r', h.get? a = some msg → h.get? b = some msg' →
    msg.ref? = some r → msg'.ref? = some r' → r.addr = r'.addr → a = b

/-- Changes that keep every message and its feed keep the store well formed. -/
theorem Heap.WF.of_map {h h' : Heap} (hwf : h.WF) (hbrk : h'.brk = h.brk)
    (g : Nat → MyMessage → MyMessage) (hget : ∀ a, h'.get? a = (h.get? a).map (g a))
    (hg : ∀ a msg, (g a msg).ref? = msg.ref?) : h'.WF := by
  have hback : ∀ a msg', h'.get? a = some msg' →
      ∃ msg, h.get? a = some msg ∧ msg'.ref? = msg.ref? := by
    intro a msg' hmsg'
    rw [hget] at hmsg'
    obtain ⟨msg, hmsg, rfl⟩ := Option.map_eq_some_iff.mp hmsg'
    exact ⟨msg, hmsg, hg a msg⟩
  refine ⟨?_, ?_, ?_⟩
  · intro a msg' hmsg'
    obtain ⟨msg, hmsg, _⟩ := hback a msg' hmsg'
    rw [hbrk]
    exact hwf.below a msg hmsg
  · intro a msg' r hmsg' hr
    obtain ⟨msg, hmsg, hsame⟩ := hback a msg' hmsg'
    rw [hbrk]
    exact hwf.feed_below a msg r hmsg (hsame ▸ hr)
  · intro a b ma mb ra rb ha hb hra hrb heq
    obtain ⟨na, hna, hsa⟩ := hback a ma ha
    obtain ⟨nb, hnb, hsb⟩ := hback b mb hb
    exact hwf.feed_inj a b na nb ra rb hna hnb (hsa ▸ hra) (hsb ▸ hrb) heq

/-- `m` is the message that the waiting feed `r` belongs to. -/
structure ExecState.Owns (s : ExecState) (m : Nat) (r : FeedRef) : Prop where
  mapped : s.self.sfToM.get? r.addr = some m
  held : ∃ msg, s.heap.get? m = some msg ∧ msg.ref? = some r ∧ msg.live = 1

/-- Owned feeds are told apart by their addresses. -/
theorem ExecState.Owns.unique {s : ExecState} {m m' : Nat} {r r' : FeedRef}
    (h : s.Owns m r) (h' : s.Owns m' r') (heq : r.addr = r'.addr) : r = r' := by
  have hm : m = m' := by
    have hmapped := h.mapped
    rw [heq, h'.mapped] at hmapped
    exact (Option.some.inj hmapped).symm
  subst hm
  obtain ⟨msg, hmsg, href, _⟩ := h.held
  obtain ⟨msg', hmsg', href', _⟩ := h'.held
  rw [hmsg] at hmsg'
  cases hmsg'
  rw [href] at href'
  exact Option.some.inj href'

/-- The message of a released feed is free. -/
def settle (l : List FeedRef) (msg : MyMessage) : MyMessage :=
  if msg.ref? ∈ l.map some then {msg with live := 0} else msg

@[simp] theorem settle_nil (msg : MyMessage) : settle [] msg = msg := by
  simp [settle]

@[simp] theorem settle_ref? (l : List FeedRef) (msg : MyMessage) :
    (settle l msg).ref? = msg.ref? := by
  unfold settle
  split_ifs <;> rfl

theorem settle_cons (r : FeedRef) (l : List FeedRef) (msg : MyMessage) :
    settle l (settle [r] msg) = settle (r :: l) msg := by
  by_cases hr : msg.ref? = some r
  · simp [settle, hr]
  · simp [settle, hr]

theorem settle_of_notMem {l : List FeedRef} {msg : MyMessage} {r : FeedRef}
    (href : msg.ref? = some r) (hr : r ∉ l) : settle l msg = msg := by
  simp [settle, href, hr]

theorem settle_of_mem {l : List FeedRef} {msg : MyMessage} {r : FeedRef}
    (href : msg.ref? = some r) (hr : r ∈ l) : settle l msg = {msg with live := 0} := by
  simp [settle, href, hr]

/-- What releasing the feeds of `l` changes, and what it leaves. -/
structure Settled (s : ExecState) (l : List FeedRef) (s' : ExecState) : Prop where
  contextMap : s'.contextMap = s.contextMap
  res : s'.self.res = s.self.res
  brk : s'.heap.brk = s.heap.brk
  heap : ∀ a, s'.heap.get? a = (s.heap.get? a).map (settle l)
  sfToM : ∀ x, s'.self.sfToM.get? x =
    if x ∈ l.map FeedRef.addr then none else s.self.sfToM.get? x

theorem Settled.refl (s : ExecState) : Settled s [] s :=
  ⟨rfl, rfl, rfl, fun a => by cases s.heap.get? a <;> simp, fun x => by simp⟩

theorem Settled.heap_wf {s s' : ExecState} {l : List FeedRef} (h : Settled s l s')
    (hwf : s.heap.WF) : s'.heap.WF :=
  hwf.of_map h.brk (fun _ => settle l) h.heap (fun _ msg => settle_ref? l msg)

/-- One owned feed. -/
theorem release_owned {s : ExecState} (hwf : s.heap.WF) {m : Nat} {r : FeedRef}
    (hown : s.Owns m r) : ∃ s', s.release r.addr = .ok s' ∧ Settled s [r] s' := by
  obtain ⟨msg, hmsg, href, hlive⟩ := hown.held
  have hkill := Heap.kill_of_get? hmsg (by omega)
  let heap := s.heap.store m {msg with live := msg.live - 1}
  refine ⟨{s with heap := heap, self := {s.self with sfToM := s.self.sfToM.erase r.addr}},
    ?_, ?_⟩
  · unfold ExecState.release
    simp only [hown.mapped, hkill, ok_bind]
    rfl
  · refine ⟨rfl, rfl, rfl, ?_, ?_⟩
    · intro a
      simp only [heap, Heap.get?_store]
      by_cases ha : a = m
      · subst ha
        simp [hmsg, settle_of_mem href, hlive]
      · cases hget : s.heap.get? a with
        | none => simp [ha]
        | some other =>
            have hother : other.ref? ≠ some r := by
              intro hsame
              exact ha (hwf.feed_inj a m other msg r r hget hmsg hsame href rfl)
            simp [ha, settle, hother]
    · intro x
      simp only [OrdMap.get?_erase, List.map_cons, List.map_nil, List.mem_singleton]

/-- Releasing a feed leaves every other one owned. -/
theorem Settled.owns_other {s s' : ExecState} {m : Nat} {r : FeedRef} {l : List FeedRef}
    (h : Settled s l s') (hown : s.Owns m r) (hr : r.addr ∉ l.map FeedRef.addr) :
    s'.Owns m r := by
  obtain ⟨msg, hmsg, href, hlive⟩ := hown.held
  have hnot : r ∉ l := fun hmem => hr (List.mem_map_of_mem hmem)
  refine ⟨?_, msg, ?_, href, hlive⟩
  · rw [h.sfToM, if_neg hr, hown.mapped]
  · rw [h.heap, hmsg, Option.map_some, settle_of_notMem href hnot]

theorem releaseAll_owned {s : ExecState} (hwf : s.heap.WF) {l : List FeedRef}
    (hnodup : (l.map FeedRef.addr).Nodup) (hown : ∀ r ∈ l, ∃ m, s.Owns m r) :
    ∃ s', releaseAll l s = .ok s' ∧ Settled s l s' := by
  induction l generalizing s with
  | nil => exact ⟨s, rfl, Settled.refl s⟩
  | cons r rest ih =>
      obtain ⟨m, hm⟩ := hown r (by simp)
      obtain ⟨t, ht, hset⟩ := release_owned hwf hm
      obtain ⟨hr, hrest⟩ := List.nodup_cons.mp hnodup
      have hownrest : ∀ r' ∈ rest, ∃ m', t.Owns m' r' := by
        intro r' hr'
        obtain ⟨m', hm'⟩ := hown r' (List.mem_cons_of_mem _ hr')
        refine ⟨m', hset.owns_other hm' ?_⟩
        intro hsame
        have heq : r'.addr = r.addr := by simpa using hsame
        exact hr (heq ▸ List.mem_map_of_mem hr')
      obtain ⟨u, hu, hsetu⟩ := ih (hset.heap_wf hwf) hrest hownrest
      refine ⟨u, ?_, ?_⟩
      · simp only [releaseAll, List.foldlM_cons, ht, ok_bind]
        exact hu
      · refine ⟨hsetu.contextMap.trans hset.contextMap, hsetu.res.trans hset.res,
          hsetu.brk.trans hset.brk, ?_, ?_⟩
        · intro a
          rw [hsetu.heap, hset.heap, Option.map_map]
          congr 1
          funext msg
          exact settle_cons r rest msg
        · intro x
          rw [hsetu.sfToM, hset.sfToM]
          by_cases h1 : x ∈ rest.map FeedRef.addr
          · simp only [h1, if_true, List.map_cons, List.mem_cons, or_true]
          · simp only [h1, if_false, List.map_cons, List.map_nil, List.mem_cons, or_false,
              List.not_mem_nil]

end OLog
