import Mathlib.Data.List.Pairwise
import OLog.Commit

/-!
Several topics. `store_offset` keeps one queue per partition *number*, whatever
the topic, and commits only the last message it frees in a queue. A commit
moves the position of that message's own topic. So a call advances every
topic-partition exactly if what it frees in a queue is of one topic, and it
holds nothing back needlessly exactly if no topic waits behind another one's
live message. Live counts are arbitrary here: they may change at any time. So are
the messages; a call goes through if those that it frees have feeds to delete.
-/

namespace OLog

open Lib World EventLoop

/-- Messages of one topic-partition. -/
def KafkaMessage.SameSource (a b : KafkaMessage) : Prop :=
  a.topic = b.topic ∧ a.partition = b.partition

/-- Within a topic-partition the offsets increase. -/
def Advancing (messages : List KafkaMessage) : Prop :=
  messages.Pairwise (fun a b => a.SameSource b → a.offset < b.offset)

/-- The position last committed for a topic-partition. -/
def position (commits : List KafkaMessage) (topic : String) (partition : Int) : Option Int :=
  (commits.filter (fun k => k.topic = topic ∧ k.partition = partition)).getLast?.map
    (fun k => k.offset + 1)

/-- Advancing commits cover an offset as soon as one of them does. -/
theorem position_covers_iff {commits : List KafkaMessage} (h : Advancing commits)
    (message : KafkaMessage) :
    (∃ pos, position commits message.topic message.partition = some pos ∧
        message.offset < pos) ↔
      ∃ k ∈ commits, k.SameSource message ∧ message.offset ≤ k.offset := by
  have hmem : ∀ k, k ∈ commits.filter (fun k => k.topic = message.topic ∧
      k.partition = message.partition) ↔ k ∈ commits ∧ k.SameSource message := by
    intro k
    simp [KafkaMessage.SameSource]
  have hsorted : (commits.filter (fun k => k.topic = message.topic ∧
      k.partition = message.partition)).Pairwise (fun a b => a.offset < b.offset) := by
    apply List.Pairwise.imp_of_mem _ (h.filter _)
    intro a b ha hb hab
    obtain ⟨_, ha⟩ := (hmem a).mp ha
    obtain ⟨_, hb⟩ := (hmem b).mp hb
    exact hab ⟨ha.1.trans hb.1.symm, ha.2.trans hb.2.symm⟩
  unfold position
  generalize commits.filter (fun k => k.topic = message.topic ∧
    k.partition = message.partition) = mine at hmem hsorted
  rcases List.eq_nil_or_concat mine with rfl | ⟨front, last, rfl⟩
  · constructor
    · rintro ⟨pos, hpos, _⟩
      cases hpos
    · rintro ⟨k, hk, hsame, _⟩
      cases (hmem k).mpr ⟨hk, hsame⟩
  · rw [List.concat_eq_append] at hmem hsorted
    simp only [List.concat_eq_append, List.getLast?_concat, Option.map_some,
      Option.some.injEq, exists_eq_left']
    constructor
    · intro hlt
      obtain ⟨hlast, hsame⟩ := (hmem last).mp (by simp)
      exact ⟨last, hlast, hsame, by omega⟩
    · rintro ⟨k, hk, hsame, hle⟩
      have hk' := (hmem k).mpr ⟨hk, hsame⟩
      rcases List.mem_append.mp hk' with hfront | hlast
      · have := (List.pairwise_append.mp hsorted).2.2 k hfront last (by simp)
        omega
      · rw [List.mem_singleton.mp hlast] at hle
        omega

/-- What moves the queues. Of the processors only the live counts matter. -/
inductive Action where
  | consume (record : Record)
  /-- The processors leave a message with this live count. -/
  | setLive (m live : Nat)
  | storeOffset

def Action.message? : Action → Option KafkaMessage
  | .consume record => some record.message
  | _ => none

def EventLoop.setLive (l : EventLoop) (m live : Nat) : EventLoop :=
  match l.heap.get? m with
  | some msg => {l with heap := l.heap.store m {msg with live := live}}
  | none => l

namespace World

def act (w : World) : Action → Except Fault World
  | .consume record =>
      pure ⟨w.loop.consume record, w.consumed ++ [⟨w.loop.heap.brk, record.message⟩]⟩
  | .setLive m live => pure {w with loop := w.loop.setLive m live}
  | .storeOffset => do
      let l ← w.loop.storeOffset
      pure {w with loop := l}

def after (actions : List Action) : Except Fault World := actions.foldlM act (start [])

/-- The position of each topic-partition covers what has been removed of it. -/
def Covered (w : World) : Prop :=
  ∀ c ∈ w.consumed, c.addr ∉ w.loop.fifo c.message.partition →
    ∃ pos, position w.loop.commits c.message.topic c.message.partition = some pos ∧
      c.message.offset < pos

/-- What is left is live, or something earlier of its topic-partition is. -/
def LeftLive (w : World) : Prop :=
  ∀ pre c post, w.consumed = pre ++ c :: post → c.addr ∈ w.loop.fifo c.message.partition →
    ∃ c' ∈ pre ++ [c], c'.message.SameSource c.message ∧
      ∃ msg, w.loop.heap.get? c'.addr = some msg ∧ msg.live ≠ 0

end World

namespace EventLoop

def topicAt (l : EventLoop) (m : Nat) : Option String :=
  (l.heap.get? m).map (fun msg => msg.message.topic)

def LiveAt (l : EventLoop) (m : Nat) : Prop := ∃ msg ∈ l.heap.get? m, msg.live ≠ 0

instance (l : EventLoop) (m : Nat) : Decidable (l.LiveAt m) :=
  inferInstanceAs (Decidable (∃ msg ∈ l.heap.get? m, msg.live ≠ 0))

/-- In every queue, the free front part is of one topic, and each message behind
it is live or comes after a live one of its topic. -/
def Separated (l : EventLoop) : Prop :=
  ∀ p ∈ l.offset.keys,
    (∀ m ∈ l.freed p, l.topicAt m = (l.freed p).getLast?.bind l.topicAt) ∧
    ∀ n (hn : n < (l.held p).length), ∃ m ∈ (l.held p).take (n + 1),
      l.topicAt m = l.topicAt (l.held p)[n] ∧ l.LiveAt m

instance (l : EventLoop) : Decidable l.Separated :=
  inferInstanceAs (Decidable (∀ p ∈ l.offset.keys,
    (∀ m ∈ l.freed p, l.topicAt m = (l.freed p).getLast?.bind l.topicAt) ∧
    ∀ n (hn : n < (l.held p).length), ∃ m ∈ (l.held p).take (n + 1),
      l.topicAt m = l.topicAt (l.held p)[n] ∧ l.LiveAt m))

theorem setLive_steady (l : EventLoop) (m live : Nat) : l.Steady (l.setLive m live) := by
  unfold setLive
  cases hmsg : l.heap.get? m with
  | none => exact Steady.refl l
  | some msg =>
      refine ⟨⟨rfl, ?_⟩, rfl, rfl⟩
      intro a
      change ((l.heap.store m {msg with live := live}).get? a).map _ = _
      rw [Heap.get?_store]
      split_ifs with ha
      · rw [ha, hmsg]
        rfl
      · rfl

end EventLoop

/-- Consumption, queues and commits agree, for any number of topics. -/
structure World.Sound (w : World) : Prop extends World.History w where
  ordered : w.consumed.Pairwise (fun a b => a.addr < b.addr ∧
    (a.message.SameSource b.message → a.message.offset < b.message.offset))
  known : ∀ k ∈ w.loop.commits, ∃ c ∈ w.consumed, c.message = k ∧
    c.addr ∉ w.loop.fifo k.partition
  advancing : Advancing w.loop.commits

section Sound

variable {w : World}

theorem World.Sound.offset_lt (h : w.Sound) {c c' : Consumed} (hc : c ∈ w.consumed)
    (hc' : c' ∈ w.consumed) (hlt : c.addr < c'.addr) (hsame : c.message.SameSource c'.message) :
    c.message.offset < c'.message.offset := by
  have : Std.Symm (fun a b : Consumed => (a.addr < b.addr → a.message.SameSource b.message →
      a.message.offset < b.message.offset) ∧ (b.addr < a.addr → b.message.SameSource a.message →
      b.message.offset < a.message.offset)) := ⟨fun _ _ => And.symm⟩
  have hboth : w.consumed.Pairwise (fun a b : Consumed => (a.addr < b.addr →
      a.message.SameSource b.message → a.message.offset < b.message.offset) ∧
      (b.addr < a.addr → b.message.SameSource a.message →
        b.message.offset < a.message.offset)) := by
    refine h.ordered.imp ?_
    intro a b hab
    refine ⟨fun _ => hab.2, fun hba => ?_⟩
    have := hab.1
    omega
  have hne : c ≠ c' := by
    rintro rfl
    omega
  exact (hboth.forall hc hc' hne).1 hlt hsame

/-- Consumed messages are told apart by their addresses. -/
theorem World.Sound.eq_of_addr (h : w.Sound) {c c' : Consumed} (hc : c ∈ w.consumed)
    (hc' : c' ∈ w.consumed) (heq : c.addr = c'.addr) : c = c' := by
  have hnodup : (w.consumed.map Consumed.addr).Nodup := by
    rw [List.Nodup, List.pairwise_map]
    exact h.ordered.imp (fun hab => hab.1.ne)
  exact List.inj_on_of_nodup_map hnodup hc hc' heq

theorem World.Sound.partition_sorted (h : w.Sound) (p : Int) :
    ((w.consumed.filter (fun c => c.message.partition = p)).map Consumed.addr).Pairwise
      (· < ·) := by
  rw [List.pairwise_map]
  exact (h.ordered.filter _).imp (fun hab => hab.1)

theorem World.Sound.fifo_sorted (h : w.Sound) (p : Int) :
    (w.loop.fifo p).Pairwise (· < ·) := by
  obtain ⟨gone, hsplit, _⟩ := h.split p
  have hsorted := h.partition_sorted p
  rw [hsplit] at hsorted
  exact (List.pairwise_append.mp hsorted).2.1

/-- What has left a queue came before everything that is still in it. -/
theorem World.Sound.addr_lt (h : w.Sound) {c : Consumed} (hc : c ∈ w.consumed)
    (hgone : c.addr ∉ w.loop.fifo c.message.partition) {m : Nat}
    (hm : m ∈ w.loop.fifo c.message.partition) : c.addr < m := by
  obtain ⟨gone, hsplit, _⟩ := h.split c.message.partition
  have hsorted := h.partition_sorted c.message.partition
  have hmem : c.addr ∈ (w.consumed.filter (fun c' =>
      c'.message.partition = c.message.partition)).map Consumed.addr :=
    List.mem_map_of_mem (List.mem_filter.mpr ⟨hc, by simp⟩)
  rw [hsplit] at hsorted hmem
  exact (List.pairwise_append.mp hsorted).2.2 _
    ((List.mem_append.mp hmem).resolve_right hgone) m hm

theorem World.start_sound (processors : List Processor) : (World.start processors).Sound :=
  ⟨World.start_history processors, List.Pairwise.nil, fun _ hk => (List.not_mem_nil hk).elim,
    List.Pairwise.nil⟩

theorem World.Sound.consume (h : w.Sound) (record : Record)
    (horder : ∀ c ∈ w.consumed, c.message.SameSource record.message →
      c.message.offset < record.message.offset) :
    World.Sound ⟨w.loop.consume record, w.consumed ++ [⟨w.loop.heap.brk, record.message⟩]⟩ := by
  refine ⟨h.toHistory.consume record, ?_, ?_, h.advancing⟩
  · rw [List.pairwise_append]
    refine ⟨h.ordered, List.pairwise_singleton _ _, ?_⟩
    intro a ha b hb
    rw [List.mem_singleton.mp hb]
    exact ⟨h.below a ha, horder a ha⟩
  · intro k hk
    obtain ⟨c, hc, heq, hgone⟩ := h.known k hk
    refine ⟨c, List.mem_append_left _ hc, heq, ?_⟩
    have hne : c.addr ≠ w.loop.heap.brk := (h.below c hc).ne
    rw [consume_fifo]
    split_ifs
    · simp [hgone, hne]
    · exact hgone

theorem World.Sound.steady {l' : EventLoop} (h : w.Sound) (hsteady : w.loop.Steady l') :
    World.Sound {w with loop := l'} := by
  refine ⟨h.toHistory.steady hsteady, h.ordered, ?_, ?_⟩
  · intro k hk
    change k ∈ l'.commits at hk
    rw [hsteady.commits] at hk
    obtain ⟨c, hc, heq, hgone⟩ := h.known k hk
    exact ⟨c, hc, heq, by rw [hsteady.fifo]; exact hgone⟩
  · change Advancing l'.commits
    rw [hsteady.commits]
    exact h.advancing

/-- A call's commits come after the earlier ones, and there is at most one for
each partition number. -/
theorem World.Sound.store {l' : EventLoop} (h : w.Sound)
    (hstored : StoredOn w.loop w.loop.offset.keys l') : World.Sound {w with loop := l'} := by
  refine ⟨h.toHistory.store hstored, h.ordered, ?_, ?_⟩
  · intro k hk
    change k ∈ l'.commits at hk
    change ∃ c ∈ w.consumed, c.message = k ∧ c.addr ∉ l'.fifo k.partition
    rw [hstored.commits] at hk
    rcases List.mem_append.mp hk with hk | hk
    · obtain ⟨c, hc, heq, hgone⟩ := h.known k hk
      refine ⟨c, hc, heq, ?_⟩
      rw [hstored.fifo_held]
      exact fun hheld => hgone (w.loop.held_subset _ hheld)
    · obtain ⟨p, _, hk⟩ := List.mem_flatMap.mp hk
      obtain ⟨c, hc, heq, rfl, hlast⟩ := h.consumed_of_committed hk
      refine ⟨c, hc, heq, ?_⟩
      rw [hstored.fifo_held]
      exact fun hheld => h.filed.notMem_freed_of_held hheld (List.mem_of_getLast? hlast)
  · change Advancing l'.commits
    rw [hstored.commits]
    refine List.pairwise_append.mpr ⟨h.advancing, ?_, ?_⟩
    · refine List.pairwise_flatMap.mpr ⟨?_, ?_⟩
      · intro p _
        unfold committed
        cases ((w.loop.freed p).getLast?.bind w.loop.heap.get?).map MyMessage.message with
        | none => exact List.Pairwise.nil
        | some k => exact List.pairwise_singleton _ _
      · refine w.loop.offset.keys_nodup.imp ?_
        intro p p' hne k hk k' hk' hsame
        obtain ⟨_, _, _, hp, _⟩ := h.consumed_of_committed hk
        obtain ⟨_, _, _, hp', _⟩ := h.consumed_of_committed hk'
        exact absurd (hp.symm.trans (hsame.2.trans hp')) hne
    · intro k hk k' hk' hsame
      obtain ⟨c, hc, rfl, hgone⟩ := h.known k hk
      obtain ⟨p, _, hk'⟩ := List.mem_flatMap.mp hk'
      obtain ⟨c', hc', rfl, hp, hlast⟩ := h.consumed_of_committed hk'
      have hmem : c'.addr ∈ w.loop.fifo c.message.partition := by
        rw [hsame.2, hp]
        exact w.loop.freed_subset p (List.mem_of_getLast? hlast)
      exact h.offset_lt hc hc' (h.addr_lt hc hgone hmem) hsame

theorem World.Sound.covered_iff (h : w.Sound) :
    w.Covered ↔ ∀ c ∈ w.consumed, c.addr ∉ w.loop.fifo c.message.partition →
      ∃ k ∈ w.loop.commits, k.SameSource c.message ∧ c.message.offset ≤ k.offset := by
  unfold World.Covered
  simp only [position_covers_iff h.advancing]

theorem World.History.topicAt (h : w.History) {c : Consumed} (hc : c ∈ w.consumed)
    (hqueued : c.addr ∈ w.loop.fifo c.message.partition) :
    w.loop.topicAt c.addr = some c.message.topic := by
  obtain ⟨msg, hmsg, _⟩ := h.filed.stored _ _ hqueued
  rw [EventLoop.topicAt, hmsg, Option.map_some, h.tagged c hc msg hmsg]

/-- In a queue, the part that is freed ends with its greatest address. -/
theorem World.Sound.le_last_freed (h : w.Sound) {p : Int} {m last : Nat}
    (hm : m ∈ w.loop.freed p) (hlast : (w.loop.freed p).getLast? = some last) : m ≤ last := by
  have hsorted := h.fifo_sorted p
  rw [← w.loop.freed_append_held p] at hsorted
  have hfreed := (List.pairwise_append.mp hsorted).1
  obtain ⟨front, hfront⟩ := List.getLast?_eq_some_iff.mp hlast
  rw [hfront] at hfreed hm
  rcases List.mem_append.mp hm with hm | hm
  · exact ((List.pairwise_append.mp hfreed).2.2 m hm last (by simp)).le
  · exact (List.mem_singleton.mp hm).le

/-- The positions cover what a call removes exactly if it removes one topic from
each queue. -/
theorem World.Sound.covered_store_iff {l' : EventLoop} (h : w.Sound) (hcovered : w.Covered)
    (hstored : StoredOn w.loop w.loop.offset.keys l') :
    World.Covered {w with loop := l'} ↔ ∀ p ∈ w.loop.offset.keys, ∀ m ∈ w.loop.freed p,
      w.loop.topicAt m = (w.loop.freed p).getLast?.bind w.loop.topicAt := by
  rw [(h.store hstored).covered_iff]
  change (∀ c ∈ w.consumed, c.addr ∉ l'.fifo c.message.partition →
    ∃ k ∈ l'.commits, _) ↔ _
  simp only [hstored.fifo_held, hstored.commits, List.mem_append]
  constructor
  · intro hcover p hp m hm
    obtain ⟨c, hc, rfl, rfl⟩ := h.consumed_of_fifo (w.loop.freed_subset p hm)
    have hgone : c.addr ∉ w.loop.held c.message.partition :=
      fun hheld => h.filed.notMem_freed_of_held hheld hm
    obtain ⟨k, hk, hsame, hle⟩ := hcover c hc hgone
    rcases hk with hk | hk
    · -- an earlier commit does not reach this far
      obtain ⟨c', hc', rfl, hgone'⟩ := h.known k hk
      have hlt := h.addr_lt hc' hgone' (m := c.addr)
        (by rw [hsame.2]; exact w.loop.freed_subset _ hm)
      have := h.offset_lt hc' hc hlt hsame
      omega
    · obtain ⟨p, _, hk⟩ := List.mem_flatMap.mp hk
      obtain ⟨c', hc', rfl, hp', hlast⟩ := h.consumed_of_committed hk
      obtain rfl : c.message.partition = p := hsame.2.symm.trans hp'
      rw [hlast, Option.bind_some, h.topicAt hc (w.loop.freed_subset _ hm),
        h.topicAt hc' (by
          rw [hp']
          exact w.loop.freed_subset _ (List.mem_of_getLast? hlast)), hsame.1]
  · intro htopic c hc hgone
    by_cases hqueued : c.addr ∈ w.loop.fifo c.message.partition
    · have hfreed : c.addr ∈ w.loop.freed c.message.partition := by
        rw [← w.loop.freed_append_held] at hqueued
        exact (List.mem_append.mp hqueued).resolve_right hgone
      obtain ⟨last, hlast⟩ : ∃ last, (w.loop.freed c.message.partition).getLast? = some last :=
        Option.isSome_iff_exists.mp (List.getLast?_isSome.mpr (List.ne_nil_of_mem hfreed))
      have hlastMem := w.loop.freed_subset _ (List.mem_of_getLast? hlast)
      have hkey := mem_keys_of_mem_fifo hqueued
      obtain ⟨c', hc', rfl, hp'⟩ := h.consumed_of_fifo hlastMem
      have heq := htopic _ hkey _ hfreed
      rw [hlast, Option.bind_some, h.topicAt hc hqueued,
        h.topicAt hc' (by rw [hp']; exact hlastMem)] at heq
      have hsame : c.message.SameSource c'.message := ⟨Option.some.inj heq, hp'.symm⟩
      obtain ⟨msg, hmsg, _⟩ := h.filed.stored _ _ hlastMem
      have htag := h.tagged c' hc' msg hmsg
      refine ⟨c'.message, Or.inr (List.mem_flatMap.mpr ⟨_, hkey, ?_⟩),
        ⟨hsame.1.symm, hsame.2.symm⟩, ?_⟩
      · simp [committed, hlast, hmsg, htag]
      · rcases (h.le_last_freed hfreed hlast).eq_or_lt with heq | hlt
        · rw [h.eq_of_addr hc hc' heq]
        · exact (h.offset_lt hc hc' hlt hsame).le
    · obtain ⟨k, hk, hrest⟩ := h.covered_iff.mp hcovered c hc hqueued
      exact ⟨k, Or.inl hk, hrest⟩

/-- In a list with increasing keys, the part up to an element has the keys up to
the element's. -/
theorem mem_front_iff_key {α : Type} {key : α → Nat} {front back : List α} {a : α}
    (h : (front ++ a :: back).Pairwise (fun x y => key x < key y)) {b : α}
    (hb : b ∈ front ++ a :: back) : b ∈ front ++ [a] ↔ key b ≤ key a := by
  obtain ⟨_, hback, hcross⟩ := List.pairwise_append.mp h
  obtain ⟨hback, _⟩ := List.pairwise_cons.mp hback
  constructor
  · intro hmem
    rcases List.mem_append.mp hmem with hmem | hmem
    · exact (hcross b hmem a List.mem_cons_self).le
    · rw [List.mem_singleton.mp hmem]
  · intro hle
    rcases List.mem_append.mp hb with hmem | hmem
    · exact List.mem_append_left _ hmem
    · rcases List.mem_cons.mp hmem with rfl | hmem
      · exact List.mem_append_right _ (List.mem_singleton_self _)
      · have := hback b hmem
        omega

theorem mem_take_succ_iff {l : List Nat} (h : l.Pairwise (· < ·)) {n : Nat} (hn : n < l.length)
    {m : Nat} : m ∈ l.take (n + 1) ↔ m ∈ l ∧ m ≤ l[n] := by
  have hcut : l = l.take n ++ l[n] :: l.drop (n + 1) := by
    rw [List.getElem_cons_drop, List.take_append_drop]
  have htake : l.take (n + 1) = l.take n ++ [l[n]] := (List.take_append_getElem hn).symm
  have hfront : m ∈ l → (m ∈ l.take (n + 1) ↔ m ≤ l[n]) := by
    intro hm
    rw [hcut] at h hm
    have hkey : m ∈ l.take n ++ [l[n]] ↔ id m ≤ id l[n] := mem_front_iff_key h hm
    rw [htake]
    exact hkey
  exact ⟨fun hm => ⟨List.mem_of_mem_take hm, (hfront (List.mem_of_mem_take hm)).mp hm⟩,
    fun hm => (hfront hm.1).mpr hm.2⟩

/-- Earlier in the history is earlier in the queue. -/
theorem World.Sound.mem_front_iff (h : w.Sound) {pre post : List Consumed} {c : Consumed}
    (hsplit : w.consumed = pre ++ c :: post) {c' : Consumed} (hc' : c' ∈ w.consumed) :
    c' ∈ pre ++ [c] ↔ c'.addr ≤ c.addr := by
  have hordered := h.ordered.imp And.left
  rw [hsplit] at hordered hc'
  exact mem_front_iff_key hordered hc'

theorem World.Sound.held_sorted (h : w.Sound) (p : Int) :
    (w.loop.held p).Pairwise (· < ·) :=
  (h.fifo_sorted p).sublist (List.dropWhile_sublist _)

/-- What a call leaves in the queues is held back by its own topic-partition
exactly if behind each queue's free front part every message has a live one of
its topic at or before it. -/
theorem World.Sound.leftLive_store_iff {l' : EventLoop} (h : w.Sound)
    (hstored : StoredOn w.loop w.loop.offset.keys l') :
    World.LeftLive {w with loop := l'} ↔ ∀ p ∈ w.loop.offset.keys,
      ∀ n (hn : n < (w.loop.held p).length), ∃ m ∈ (w.loop.held p).take (n + 1),
        w.loop.topicAt m = w.loop.topicAt (w.loop.held p)[n] ∧ w.loop.LiveAt m := by
  unfold World.LeftLive
  simp only [hstored.fifo_held]
  constructor
  · intro hleft p _ n hn
    obtain ⟨c, hc, haddr, rfl⟩ :=
      h.consumed_of_fifo (w.loop.held_subset p (List.getElem_mem hn))
    have hheld : c.addr ∈ w.loop.held c.message.partition := haddr ▸ List.getElem_mem hn
    obtain ⟨pre, post, hsplit⟩ := List.append_of_mem hc
    obtain ⟨c', hc', hsame, msg, hmsg, hlive⟩ := hleft pre c post hsplit hheld
    have hc'mem : c' ∈ w.consumed := by
      rw [hsplit]
      rcases List.mem_append.mp hc' with hfront | hself
      · exact List.mem_append_left _ hfront
      · rw [List.mem_singleton.mp hself]
        exact List.mem_append_right _ List.mem_cons_self
    have hle := (h.mem_front_iff hsplit hc'mem).mp hc'
    have hqueued := (hstored.filed h.filed).queued c'.addr msg hmsg
    have htag := h.tagged c' hc'mem msg (hstored.sub hmsg).1
    rw [hstored.fifo_held, htag, hsame.2] at hqueued
    refine ⟨c'.addr, ?_, ?_, msg, (hstored.sub hmsg).1, hlive⟩
    · rw [mem_take_succ_iff (h.held_sorted _) hn, ← haddr]
      exact ⟨hqueued, hle⟩
    · rw [← haddr, h.topicAt hc (w.loop.held_subset _ hheld),
        h.topicAt hc'mem (by rw [hsame.2]; exact w.loop.held_subset _ hqueued), hsame.1]
  · intro hcond pre c post hsplit hheld
    have hc : c ∈ w.consumed := by
      change w.consumed = _ at hsplit
      rw [hsplit]
      simp
    obtain ⟨n, hn, hat⟩ := List.getElem_of_mem hheld
    have hqueued := w.loop.held_subset _ hheld
    obtain ⟨m, hm, htopic, msg, hmsg, hlive⟩ := hcond _ (mem_keys_of_mem_fifo hqueued) n hn
    obtain ⟨hmheld, hle⟩ := (mem_take_succ_iff (h.held_sorted _) hn).mp hm
    obtain ⟨c', hc', rfl, hp⟩ := h.consumed_of_fifo (w.loop.held_subset _ hmheld)
    rw [hat] at htopic hle
    rw [h.topicAt hc hqueued,
      h.topicAt hc' (by rw [hp]; exact w.loop.held_subset _ hmheld)] at htopic
    refine ⟨c', (h.mem_front_iff hsplit hc').mpr hle, ⟨Option.some.inj htopic, hp⟩, msg, ?_,
      hlive⟩
    have hkept : l'.heap.get? c'.addr = w.loop.heap.get? c'.addr := by
      apply hstored.kept
      intro p _
      by_cases heq : c.message.partition = p
      · rw [← heq]
        exact h.filed.notMem_freed_of_held hmheld
      · exact h.filed.notMem_freed_of_other heq (w.loop.held_subset _ hmheld)
    exact hkept.trans hmsg

end Sound

section Runs

variable {seen actions : List Action}

theorem Advancing.of_prefix (h : Advancing (actions.filterMap Action.message?))
    (hseen : seen <+: actions) : Advancing (seen.filterMap Action.message?) :=
  h.sublist (hseen.sublist.filterMap _)

theorem World.act_storeOffset {w : World} {l' : EventLoop} (hstore : w.loop.storeOffset = .ok l') :
    w.act .storeOffset = .ok {w with loop := l'} := by
  simp only [World.act, hstore, ok_bind]
  rfl

/-- A run over messages in the broker's order keeps everything in agreement. -/
theorem World.after_sound (hadvancing : Advancing (actions.filterMap Action.message?)) {w : World}
    (hafter : World.after actions = .ok w) :
    w.Sound ∧ w.consumed.map Consumed.message = actions.filterMap Action.message? := by
  refine foldlM_ok_history (I := fun seen w => World.Sound w ∧
    w.consumed.map Consumed.message = seen.filterMap Action.message?) hafter
    ⟨World.start_sound [], rfl⟩ ?_
  rintro seen action w w' hseen ⟨hw, hconsumed⟩ hact
  cases action with
  | consume record =>
      cases hact
      refine ⟨hw.consume record ?_, ?_⟩
      · intro c hc hsame
        have hpairwise := hadvancing.of_prefix hseen
        rw [Advancing, List.filterMap_append, List.pairwise_append] at hpairwise
        refine hpairwise.2.2 c.message ?_ record.message (by simp [Action.message?]) hsame
        rw [← hconsumed]
        exact List.mem_map_of_mem hc
      · rw [List.map_append, hconsumed, List.filterMap_append]
        rfl
  | setLive m live =>
      cases hact
      refine ⟨hw.steady (w.loop.setLive_steady m live), ?_⟩
      rw [List.filterMap_append]
      exact hconsumed.trans (List.append_nil _).symm
  | storeOffset =>
      obtain ⟨l', hstore, hresult⟩ := bind_eq_ok.mp hact
      cases hresult
      refine ⟨hw.store (storeOffset_stored hw.filed hstore).1, ?_⟩
      rw [List.filterMap_append]
      exact hconsumed.trans (List.append_nil _).symm

theorem World.after_concat {w : World} (h : World.after seen = .ok w) (action : Action) :
    World.after (seen ++ [action]) = w.act action := by
  unfold World.after at h ⊢
  rw [foldlM_concat, h, ok_bind]

/-- The actions go through; after them the positions cover what has been removed, and
what a call leaves is held back by its own topic-partition. -/
def Advanced (seen : List Action) : Prop :=
  ∃ w, World.after seen = .ok w ∧ w.Covered ∧
    (seen.getLast? = some .storeOffset → w.LeftLive)

/-- A call that finds its queues in order, and feeds in what it deletes. -/
def CallsSeparated (seen : List Action) (action : Action) : Prop :=
  action = .storeOffset → ∀ w, World.after seen = .ok w →
    w.loop.Separated ∧ ∀ p ∈ w.loop.offset.keys, w.loop.Deletable p

/-- One call, from positions that cover everything. -/
theorem World.Sound.advanced_store_iff {w : World} (h : w.Sound) (hcovered : w.Covered) :
    (∃ w', w.act .storeOffset = .ok w' ∧ w'.Covered ∧ w'.LeftLive) ↔
      w.loop.Separated ∧ ∀ p ∈ w.loop.offset.keys, w.loop.Deletable p := by
  have hstored_iff : ∀ l', StoredOn w.loop w.loop.offset.keys l' →
      (World.Covered {w with loop := l'} ∧ World.LeftLive {w with loop := l'} ↔
        w.loop.Separated) := by
    intro l' hstored
    rw [h.covered_store_iff hcovered hstored, h.leftLive_store_iff hstored, EventLoop.Separated]
    exact forall₂_and.symm
  constructor
  · rintro ⟨w', hact, hafter⟩
    obtain ⟨l', hstore, hresult⟩ := bind_eq_ok.mp hact
    cases hresult
    obtain ⟨hstored, hdeletable⟩ := storeOffset_stored h.filed hstore
    exact ⟨(hstored_iff l' hstored).mp hafter, hdeletable⟩
  · rintro ⟨hseparated, hdeletable⟩
    obtain ⟨l', hstore⟩ := storeOffset_ok h.filed hdeletable
    obtain ⟨hstored, _⟩ := storeOffset_stored h.filed hstore
    exact ⟨_, World.act_storeOffset hstore, (hstored_iff l' hstored).mpr hseparated⟩

theorem advanced_concat_iff {action : Action}
    (hadvancing : Advancing ((seen ++ [action]).filterMap Action.message?))
    (h : Advanced seen) : Advanced (seen ++ [action]) ↔ CallsSeparated seen action := by
  obtain ⟨w, hw, hcovered, _⟩ := h
  obtain ⟨hsound, _⟩ := World.after_sound
    (hadvancing.of_prefix (List.prefix_append seen [action])) hw
  have hact := World.after_concat hw action
  unfold Advanced CallsSeparated
  simp only [hw, Except.ok.injEq, forall_eq', List.getLast?_concat, Option.some.injEq]
  cases action with
  | consume record =>
      obtain ⟨hnext, _⟩ := World.after_sound hadvancing hact
      refine iff_of_true ⟨_, hact, ?_, by simp⟩ (by simp)
      rw [hnext.covered_iff]
      intro c hc hgone
      rw [consume_fifo] at hgone
      rcases List.mem_append.mp hc with hc | hc
      · refine hsound.covered_iff.mp hcovered c hc ?_
        split_ifs at hgone
        · exact fun hmem => hgone (List.mem_append_left _ hmem)
        · exact hgone
      · rw [List.mem_singleton.mp hc] at hgone
        simp at hgone
  | setLive m live =>
      obtain ⟨hnext, _⟩ := World.after_sound hadvancing hact
      refine iff_of_true ⟨_, hact, ?_, by simp⟩ (by simp)
      rw [hnext.covered_iff]
      have hsteady := w.loop.setLive_steady m live
      simp only [hsteady.fifo, hsteady.commits]
      exact hsound.covered_iff.mp hcovered
  | storeOffset =>
      rw [hact]
      simp only [true_imp_iff]
      exact hsound.advanced_store_iff hcovered

/-- For any topics, any order of consumption and any live counts: after every
call of `store_offset` the committed positions cover everything removed so far
and every message left is held back by its own topic-partition, exactly if
every call finds its queues separated and feeds in the messages it deletes. -/
theorem offsets_advance_iff (actions : List Action)
    (hadvancing : Advancing (actions.filterMap Action.message?)) :
    (∀ n ≤ actions.length, Advanced (actions.take n)) ↔
      ∀ n (hn : n < actions.length), CallsSeparated (actions.take n) actions[n] := by
  apply forall_take_iff actions
  · refine ⟨World.start [], rfl, ?_, by simp⟩
    intro c hc
    cases hc
  · intro seen action hseen h
    exact advanced_concat_iff (hadvancing.of_prefix hseen) h

end Runs

/-- A Price message of a topic. -/
def topicRecord (topic : String) (offset : Int) : Record :=
  Incoming.record ⟨⟨topic, 0, offset⟩, .price {}⟩

theorem offsets_advance_one_topic :
    Advanced [.consume (topicRecord "feed" 0), .storeOffset] := by
  have hcheck : ∃ w, World.after [.consume (topicRecord "feed" 0)] = .ok w ∧
      (w.loop.Separated ∧ ∀ p ∈ w.loop.offset.keys, w.loop.Deletable p) := by
    apply exists_ok_of_check
    decide
  obtain ⟨w, hw, hseparated⟩ := hcheck
  refine (offsets_advance_iff [.consume (topicRecord "feed" 0), .storeOffset] ?_).mpr ?_ 2
    le_rfl
  · exact List.pairwise_singleton _ _
  · intro n hn
    match n, hn with
    | 0, _ =>
        intro h
        cases h
    | 1, _ =>
        rintro - w' hw'
        change World.after [.consume (topicRecord "feed" 0)] = .ok w' at hw'
        rw [hw] at hw'
        cases hw'
        exact hseparated

/-- Two topics with the same partition number, both free: both messages are
removed, and the position of one topic is never committed. -/
theorem topic_not_advanced :
    ∃ w, World.after [.consume (topicRecord "feed" 0), .consume (topicRecord "tick" 0),
        .storeOffset] = .ok w ∧
      (∃ c ∈ w.consumed, c.message = ⟨"feed", 0, 0⟩ ∧ c.addr ∉ w.loop.fifo 0) ∧
      position w.loop.commits "feed" 0 = none := by
  apply exists_ok_of_check
  decide

end OLog
