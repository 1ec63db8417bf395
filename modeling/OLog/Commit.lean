import OLog.LoopInvariant
import OLog.Ownership

/-!
Commits as a protocol between two threads. The loop's thread consumes a
message, hands it to the processors one at a time, and starts over; the other
thread may call `store_offset` between any two of these steps. A consumed
message enters its partition's queue before a processor has counted it live,
so a call at that moment may commit it unprocessed. It does so exactly if no
message in that queue is live; in a run without such a call, a committed
offset covers only messages that all processors have handled and whose feeds
wait nowhere, from then on.
-/

namespace OLog

open Lib DeficiencyProcessor

/-- A message that was consumed, with the address of its object. -/
structure Consumed where
  addr : Nat
  message : KafkaMessage

/-- The allocation places a message's feed right behind it. -/
def Consumed.feedAddr (c : Consumed) : Nat := c.addr + 1

/-- The event loop with the history of what it has consumed. -/
structure World where
  loop : EventLoop
  consumed : List Consumed

namespace World

def start (processors : List Processor) : World := ⟨EventLoop.start processors, []⟩

/-- The broker's order: a single topic, and within a partition the offsets
increase. -/
def InOrder (consumed : List Consumed) (message : KafkaMessage) : Prop :=
  ∀ c ∈ consumed, c.message.topic = message.topic ∧
    (c.message.partition = message.partition → c.message.offset < message.offset)

/-- One step of either thread. Calls of `store_offset` are made in states that
satisfy `guard`. -/
inductive Step (guard : EventLoop → Prop) : World → World → Prop
  | consume (s : World) (record : Record) (hidle : s.loop.running = none)
      (horder : InOrder s.consumed record.message) :
      Step guard s ⟨s.loop.consume record,
        s.consumed ++ [⟨s.loop.heap.brk, record.message⟩]⟩
  | exec (s : World) (l' : EventLoop) (hpending : s.loop.pending ≠ [])
      (hexec : s.loop.execNext = .ok l') : Step guard s {s with loop := l'}
  | poll (s : World) (hdone : s.loop.pending = []) :
      Step guard s {s with loop := s.loop.poll}
  | store (s : World) (l' : EventLoop) (hguard : guard s.loop)
      (hstore : s.loop.storeOffset = .ok l') : Step guard s {s with loop := l'}

def Reachable (guard : EventLoop → Prop) (processors : List Processor) (s : World) : Prop :=
  Relation.ReflTransGen (Step guard) (start processors) s

end World

namespace EventLoop

/-- Every processor has handled the consumed message: it is not the one at hand,
which the loop only puts away when no processor is pending, or none is. -/
def Completed (l : EventLoop) (m : Nat) : Prop := l.running = some m → l.pending = []

/-- While a message is being processed, its partition's queue holds a live
message, this one or an earlier one. -/
def StoreSafe (l : EventLoop) : Prop :=
  ∀ m msg, l.running = some m → l.pending ≠ [] → l.heap.get? m = some msg →
    ∃ m' ∈ l.fifo msg.message.partition, ∃ msg', l.heap.get? m' = some msg' ∧ msg'.live ≠ 0

/-- The last of a queue is freed only together with all the others. -/
theorem Filed.all_free_of_last {l : EventLoop} (h : l.Filed) {p : Int} {m : Nat}
    (hlast : (l.fifo p).getLast? = some m) (hfreed : m ∈ l.freed p) :
    l.freed p = l.fifo p := by
  have hheld : l.held p = [] := by
    cases hheld : l.held p with
    | nil => rfl
    | cons first rest =>
        have hmem : m ∈ l.held p := by
          rw [← l.freed_append_held p, hheld, List.getLast?_append_cons] at hlast
          rw [hheld]
          exact List.mem_of_getLast? hlast
        exact absurd hfreed (h.notMem_freed_of_held hmem)
  rw [← l.freed_append_held p, hheld, List.append_nil]

/-- A call in a safe state does not reach the message at hand. -/
theorem StoreSafe.unreached {l : EventLoop} {d : DeficiencyProcessor} (hsafe : l.StoreSafe)
    (h : l.Inv d) {m : Nat} (hrun : l.running = some m) (hne : l.pending ≠ []) (p : Int) :
    m ∉ l.freed p := by
  intro hm
  obtain ⟨msg, hmsg, rfl⟩ := h.filed.stored p m (l.freed_subset p hm)
  obtain ⟨hlast, _⟩ := h.ready m msg hrun hne hmsg
  obtain ⟨m', hm', live, hlive, hne'⟩ := hsafe m msg hrun hne hmsg
  rw [← h.filed.all_free_of_last hlast hm] at hm'
  exact hne' (mem_freed_free hm' hlive)

end EventLoop

open World EventLoop

/-- The history agrees with queues and store. -/
structure World.History (s : World) : Prop where
  filed : s.loop.Filed
  fresh : ∀ a msg, s.loop.heap.get? a = some msg → a < s.loop.heap.brk
  below : ∀ c ∈ s.consumed, c.addr < s.loop.heap.brk
  tagged : ∀ c ∈ s.consumed, ∀ msg, s.loop.heap.get? c.addr = some msg →
    msg.message = c.message
  /-- Of what was consumed of a partition, a front part has been deleted and
  the rest is queued, in the order of consumption. -/
  split : ∀ p, ∃ gone, (s.consumed.filter (fun c => c.message.partition = p)).map
      Consumed.addr = gone ++ s.loop.fifo p ∧ ∀ m ∈ gone, s.loop.heap.get? m = none

section History

variable {s : World}

theorem World.start_history (processors : List Processor) : (World.start processors).History := by
  refine ⟨⟨?_, fun _ => List.nodup_nil, ?_⟩, ?_, ?_, ?_, fun _ => ⟨[], rfl, by simp⟩⟩
  · intro p m hm
    cases hm
  · intro m msg hmsg
    cases hmsg
  · intro a msg hmsg
    cases hmsg
  · intro c hc
    cases hc
  · intro c hc
    cases hc

theorem World.History.consume (h : s.History) (record : Record) :
    World.History ⟨s.loop.consume record,
      s.consumed ++ [⟨s.loop.heap.brk, record.message⟩]⟩ := by
  obtain ⟨hmessage, _⟩ := record.toMessage_message (s.loop.heap.brk + 1)
  have hbrk : (s.loop.consume record).heap.brk = s.loop.heap.brk + 2 := rfl
  have hold : ∀ c ∈ s.consumed,
      (s.loop.consume record).heap.get? c.addr = s.loop.heap.get? c.addr := by
    intro c hc
    have hne : c.addr ≠ s.loop.heap.brk := by
      have := h.below c hc
      omega
    rw [consume_heap, if_neg hne]
  refine ⟨h.filed.consume h.fresh record, ?_, ?_, ?_, ?_⟩
  · intro a msg hmsg
    change (s.loop.consume record).heap.get? a = some msg at hmsg
    change a < (s.loop.consume record).heap.brk
    rw [consume_heap] at hmsg
    split_ifs at hmsg with ha
    · omega
    · have := h.fresh a msg hmsg
      omega
  · intro c hc
    change c.addr < (s.loop.consume record).heap.brk
    rcases List.mem_append.mp hc with hc | hc
    · have := h.below c hc
      omega
    · rw [List.mem_singleton.mp hc]
      change s.loop.heap.brk < _
      omega
  · intro c hc msg hmsg
    rcases List.mem_append.mp hc with hc | hc
    · rw [hold c hc] at hmsg
      exact h.tagged c hc msg hmsg
    · rw [List.mem_singleton.mp hc] at hmsg ⊢
      rw [consume_heap, if_pos rfl] at hmsg
      cases hmsg
      exact hmessage
  · intro p
    obtain ⟨gone, hsplit, hgone⟩ := h.split p
    refine ⟨gone, ?_, ?_⟩
    · change _ = gone ++ (s.loop.consume record).fifo p
      rw [consume_fifo, List.filter_append, List.map_append, hsplit]
      by_cases hp : p = record.message.partition
      · simp [hp]
      · simp [hp, Ne.symm hp]
    · intro m hm
      have hmem : m ∈ (s.consumed.filter (fun c => c.message.partition = p)).map
          Consumed.addr := by
        rw [hsplit]
        exact List.mem_append_left _ hm
      obtain ⟨c, hc, rfl⟩ := List.mem_map.mp hmem
      exact (hold c (List.mem_of_mem_filter hc)).trans (hgone _ hm)

theorem World.History.steady {l' : EventLoop} (h : s.History) (hsteady : s.loop.Steady l') :
    World.History {s with loop := l'} := by
  refine ⟨h.filed.of_kept hsteady.heap hsteady.fifo, ?_, ?_, ?_, ?_⟩
  · intro a msg' hmsg'
    obtain ⟨msg, hmsg, _⟩ := hsteady.heap.symm.get hmsg'
    change a < l'.heap.brk
    rw [hsteady.heap.brk]
    exact h.fresh a msg hmsg
  · intro c hc
    change c.addr < l'.heap.brk
    rw [hsteady.heap.brk]
    exact h.below c hc
  · intro c hc msg' hmsg'
    obtain ⟨msg, hmsg, hcontent⟩ := hsteady.heap.symm.get hmsg'
    rw [← (content_eq hcontent).1]
    exact h.tagged c hc msg hmsg
  · intro p
    obtain ⟨gone, hsplit, hgone⟩ := h.split p
    refine ⟨gone, ?_, fun m hm => hsteady.absent (hgone m hm)⟩
    change _ = gone ++ l'.fifo p
    rw [hsteady.fifo]
    exact hsplit

/-- The history of a partition, split where `store_offset` stops. -/
theorem World.History.split_freed (h : s.History) (p : Int) :
    ∃ gone front back, s.consumed.filter (fun c => c.message.partition = p) = front ++ back ∧
      front.map Consumed.addr = gone ++ s.loop.freed p ∧
      back.map Consumed.addr = s.loop.held p ∧
      ∀ m ∈ gone, s.loop.heap.get? m = none := by
  obtain ⟨gone, hsplit, hgone⟩ := h.split p
  rw [← s.loop.freed_append_held p, ← List.append_assoc] at hsplit
  obtain ⟨front, back, heq, hfront, hback⟩ := List.map_eq_append_iff.mp hsplit
  exact ⟨gone, front, back, heq, hfront, hback, hgone⟩

theorem World.History.store {l' : EventLoop} (h : s.History)
    (hstored : StoredOn s.loop s.loop.offset.keys l') : World.History {s with loop := l'} := by
  refine ⟨hstored.filed h.filed, ?_, ?_, ?_, ?_⟩
  · intro a msg hmsg
    change a < l'.heap.brk
    rw [hstored.brk]
    exact h.fresh a msg (hstored.sub hmsg).1
  · intro c hc
    change c.addr < l'.heap.brk
    rw [hstored.brk]
    exact h.below c hc
  · intro c hc msg hmsg
    exact h.tagged c hc msg (hstored.sub hmsg).1
  · intro p
    obtain ⟨gone, front, back, heq, hfront, hback, hgone⟩ := h.split_freed p
    refine ⟨gone ++ s.loop.freed p, ?_, ?_⟩
    · change _ = _ ++ l'.fifo p
      rw [hstored.fifo_held, heq, List.map_append, hfront, hback]
    · intro m hm
      rcases List.mem_append.mp hm with hm | hm
      · exact hstored.absent (hgone m hm)
      · exact hstored.freed_gone hm

/-- Every queued message was consumed. -/
theorem World.History.consumed_of_fifo (h : s.History) {p : Int} {m : Nat}
    (hm : m ∈ s.loop.fifo p) :
    ∃ c ∈ s.consumed, c.addr = m ∧ c.message.partition = p := by
  obtain ⟨gone, hsplit, _⟩ := h.split p
  have hmem : m ∈ (s.consumed.filter (fun c => c.message.partition = p)).map
      Consumed.addr := by
    rw [hsplit]
    exact List.mem_append_right _ hm
  obtain ⟨c, hc, heq⟩ := List.mem_map.mp hmem
  obtain ⟨hc, hp⟩ := List.mem_filter.mp hc
  exact ⟨c, hc, heq, by simpa using hp⟩

/-- A commit of a partition is the message of the last one freed. -/
theorem mem_committed {l : EventLoop} {p : Int} {k : KafkaMessage} (hk : k ∈ l.committed p) :
    ∃ m, (l.freed p).getLast? = some m ∧ ∃ msg, l.heap.get? m = some msg ∧ msg.message = k := by
  unfold committed at hk
  rw [Option.mem_toList, Option.map_eq_some_iff] at hk
  obtain ⟨msg, hmsg, hmessage⟩ := hk
  obtain ⟨m, hm, hget⟩ := Option.bind_eq_some_iff.mp hmsg
  exact ⟨m, hm, msg, hget, hmessage⟩

/-- Everything that a call commits was consumed and is freed by the call. -/
theorem World.History.consumed_of_committed (h : s.History) {p : Int} {k : KafkaMessage}
    (hk : k ∈ s.loop.committed p) :
    ∃ c ∈ s.consumed, c.message = k ∧ k.partition = p ∧
      (s.loop.freed p).getLast? = some c.addr := by
  obtain ⟨m, hlast, msg, hmsg, rfl⟩ := mem_committed hk
  have hm := s.loop.freed_subset p (List.mem_of_getLast? hlast)
  obtain ⟨c, hc, rfl, hp⟩ := h.consumed_of_fifo hm
  have htag := h.tagged c hc msg hmsg
  exact ⟨c, hc, htag.symm, by rw [htag, hp], hlast⟩

end History

/-- Everything that is known in a state of the protocol. -/
structure World.Inv (s : World) (d : DeficiencyProcessor) : Prop extends s.History where
  loop : s.loop.Inv d
  present : ∀ m, s.loop.running = some m → s.loop.pending ≠ [] →
    ∃ msg, s.loop.heap.get? m = some msg
  placed : ∀ a msg r, s.loop.heap.get? a = some msg → msg.ref? = some r → r.addr = a + 1
  order : s.consumed.Pairwise (fun a b =>
    a.message.partition = b.message.partition → a.message.offset < b.message.offset)
  known : ∀ k ∈ s.loop.commits, ∃ c ∈ s.consumed, c.message = k
  covered : ∀ k ∈ s.loop.commits, ∀ c ∈ s.consumed,
    c.message.partition = k.partition → c.message.offset ≤ k.offset →
      s.loop.heap.get? c.addr = none

theorem World.start_inv {processors : List Processor}
    (hone : processors.filterMap Processor.deficiency? = [DeficiencyProcessor.fresh]) :
    (World.start processors).Inv DeficiencyProcessor.fresh := by
  refine ⟨World.start_history processors, EventLoop.start_inv hone, ?_, ?_,
    List.Pairwise.nil, ?_, ?_⟩
  · intro m hm
    cases hm
  · intro a msg r hmsg
    cases hmsg
  · intro k hk
    cases hk
  · intro k hk
    cases hk

/-- A deleted message is gone for the processors and for the queues. -/
theorem World.Inv.settled {s : World} {d : DeficiencyProcessor} (h : s.Inv d) {c : Consumed}
    (hgone : s.loop.heap.get? c.addr = none) :
    s.loop.Completed c.addr ∧ ∀ code, ∀ r ∈ s.loop.queueOf code, r.addr ≠ c.feedAddr := by
  constructor
  · intro hrun
    by_contra hne
    obtain ⟨msg, hmsg⟩ := h.present c.addr hrun hne
    rw [hgone] at hmsg
    cases hmsg
  · intro code r hr heq
    obtain ⟨m, msg, hheld⟩ := h.loop.heldBy hr
    have hplaced := h.placed m msg r hheld.stored hheld.carries
    have hm : m = c.addr := by
      unfold Consumed.feedAddr at heq
      omega
    rw [← hm, hheld.stored] at hgone
    cases hgone

section Steps

variable {s : World} {d : DeficiencyProcessor}

theorem World.Inv.consume (h : s.Inv d) (record : Record)
    (horder : InOrder s.consumed record.message) :
    World.Inv ⟨s.loop.consume record, s.consumed ++ [⟨s.loop.heap.brk, record.message⟩]⟩ d := by
  refine ⟨h.toHistory.consume record, consume_inv h.loop record, ?_, ?_, ?_, ?_, ?_⟩
  · intro m hm _
    have hbrk : m = s.loop.heap.brk := (Option.some.inj hm).symm
    exact ⟨_, by rw [consume_heap, if_pos hbrk]⟩
  · intro a msg r hmsg hr
    change (s.loop.consume record).heap.get? a = some msg at hmsg
    rw [consume_heap] at hmsg
    split_ifs at hmsg with ha
    · cases hmsg
      rw [ha]
      exact record.toMessage_places _ r hr
    · exact h.placed a msg r hmsg hr
  · rw [List.pairwise_append]
    refine ⟨h.order, List.pairwise_singleton _ _, ?_⟩
    intro a ha b hb
    rw [List.mem_singleton.mp hb]
    exact (horder a ha).2
  · intro k hk
    obtain ⟨c, hc, heq⟩ := h.known k hk
    exact ⟨c, List.mem_append_left _ hc, heq⟩
  · intro k hk c hc hpart hle
    rcases List.mem_append.mp hc with hc | hc
    · have hne : c.addr ≠ s.loop.heap.brk := by
        have := h.below c hc
        omega
      rw [consume_heap, if_neg hne]
      exact h.covered k hk c hc hpart hle
    · -- what is consumed now comes after everything committed
      rw [List.mem_singleton.mp hc] at hpart hle
      obtain ⟨c', hc', rfl⟩ := h.known k hk
      have hlt := (horder c' hc').2 hpart.symm
      change record.message.offset ≤ c'.message.offset at hle
      omega

theorem World.Inv.steady {l' : EventLoop} {d' : DeficiencyProcessor} (h : s.Inv d)
    (hsteady : s.loop.Steady l') (hinv : l'.Inv d')
    (hpresent : ∀ m, l'.running = some m → s.loop.running = some m ∧ s.loop.pending ≠ []) :
    World.Inv {s with loop := l'} d' := by
  refine ⟨h.toHistory.steady hsteady, hinv, ?_, ?_, h.order, ?_, ?_⟩
  · intro m hm _
    obtain ⟨hrun, hne⟩ := hpresent m hm
    obtain ⟨msg, hmsg⟩ := h.present m hrun hne
    obtain ⟨msg', hmsg', _⟩ := hsteady.heap.get hmsg
    exact ⟨msg', hmsg'⟩
  · intro a msg' r hmsg' hr
    obtain ⟨msg, hmsg, hcontent⟩ := hsteady.heap.symm.get hmsg'
    exact h.placed a msg r hmsg (ref?_eq_of_content hcontent ▸ hr)
  · intro k hk
    change k ∈ l'.commits at hk
    rw [hsteady.commits] at hk
    exact h.known k hk
  · intro k hk c hc hpart hle
    change k ∈ l'.commits at hk
    rw [hsteady.commits] at hk
    exact hsteady.absent (h.covered k hk c hc hpart hle)

theorem World.Inv.store {l' : EventLoop} (h : s.Inv d) (hsafe : s.loop.StoreSafe)
    (hstored : StoredOn s.loop s.loop.offset.keys l') (hinv : l'.Inv d) :
    World.Inv {s with loop := l'} d := by
  obtain ⟨_, _, hpending, hrunning, _⟩ := hstored.frame
  refine ⟨h.toHistory.store hstored, hinv, ?_, ?_, h.order, ?_, ?_⟩
  · intro m hm hne
    change l'.running = some m at hm
    change l'.pending ≠ [] at hne
    rw [hrunning] at hm
    rw [hpending] at hne
    obtain ⟨msg, hmsg⟩ := h.present m hm hne
    exact ⟨msg, (hstored.kept m (fun p _ => hsafe.unreached h.loop hm hne p)).trans hmsg⟩
  · intro a msg r hmsg hr
    exact h.placed a msg r (hstored.sub hmsg).1 hr
  · intro k hk
    change k ∈ l'.commits at hk
    rw [hstored.commits] at hk
    rcases List.mem_append.mp hk with hk | hk
    · exact h.known k hk
    · obtain ⟨p, _, hk⟩ := List.mem_flatMap.mp hk
      obtain ⟨c, hc, heq, _⟩ := h.consumed_of_committed hk
      exact ⟨c, hc, heq⟩
  · intro k hk c hc hpart hle
    change k ∈ l'.commits at hk
    rw [hstored.commits] at hk
    rcases List.mem_append.mp hk with hk | hk
    · exact hstored.absent (h.covered k hk c hc hpart hle)
    · obtain ⟨p, _, hk⟩ := List.mem_flatMap.mp hk
      obtain ⟨c', hc', rfl, hp, hlast⟩ := h.consumed_of_committed hk
      obtain ⟨gone, front, back, heq, hfront, hback, hgone⟩ := h.split_freed p
      have hcp : c ∈ front ++ back := by
        rw [← heq]
        exact List.mem_filter.mpr ⟨hc, by simp [hpart, hp]⟩
      rcases List.mem_append.mp hcp with hcf | hcb
      · -- up to the commit: deleted before or now
        have hmem : c.addr ∈ gone ++ s.loop.freed p := by
          rw [← hfront]
          exact List.mem_map_of_mem hcf
        rcases List.mem_append.mp hmem with hmem | hmem
        · exact hstored.absent (hgone _ hmem)
        · exact hstored.freed_gone hmem
      · -- after the commit: its offset is greater
        have hc'p : c' ∈ front ++ back := by
          rw [← heq]
          exact List.mem_filter.mpr ⟨hc', by simp [hp]⟩
        have hc'front : c' ∈ front := by
          refine (List.mem_append.mp hc'p).resolve_right ?_
          intro hc'back
          have hheld : c'.addr ∈ s.loop.held p := by
            rw [← hback]
            exact List.mem_map_of_mem hc'back
          exact h.loop.filed.notMem_freed_of_held hheld (List.mem_of_getLast? hlast)
        have hordered := h.order.filter (fun c => c.message.partition = p)
        rw [heq] at hordered
        have hlt := (List.pairwise_append.mp hordered).2.2 c' hc'front c hcb hpart.symm
        omega

end Steps

/-- Every step, with calls of `store_offset` in safe states only. -/
theorem World.Inv.step {s t : World} {d : DeficiencyProcessor} (h : s.Inv d)
    (hstep : Step StoreSafe s t) : ∃ d', t.Inv d' := by
  cases hstep with
  | consume record _ horder => exact ⟨d, h.consume record horder⟩
  | exec l' hne hexec =>
      obtain ⟨hsteady, d', hinv⟩ := execNext_inv h.loop hexec
      refine ⟨d', h.steady hsteady hinv ?_⟩
      intro m hm
      exact ⟨(execNext_cursor hexec).1.symm.trans hm, hne⟩
  | poll _ =>
      refine ⟨d, h.steady ⟨Heap.Kept.refl _, rfl, rfl⟩ (poll_inv h.loop) ?_⟩
      intro m hm
      cases hm
  | store l' hsafe hstore =>
      obtain ⟨hstored, hinv⟩ := storeOffset_inv h.loop hstore
      exact ⟨d, h.store hsafe hstored hinv⟩

theorem World.Reachable.inv {processors : List Processor}
    (hone : processors.filterMap Processor.deficiency? = [DeficiencyProcessor.fresh])
    {s : World} (hreach : Reachable StoreSafe processors s) : ∃ d, s.Inv d := by
  induction hreach with
  | refl => exact ⟨_, World.start_inv hone⟩
  | tail _ hstep ih =>
      obtain ⟨d, hinv⟩ := ih
      exact hinv.step hstep

/-- A call in any other state commits the message at hand, unprocessed. -/
theorem World.Inv.store_exposed {s : World} {d : DeficiencyProcessor} (h : s.Inv d)
    (hexposed : ¬ s.loop.StoreSafe) {l' : EventLoop} (hstore : s.loop.storeOffset = .ok l') :
    ∃ c ∈ s.consumed, c.message ∈ l'.commits ∧ ¬ l'.Completed c.addr := by
  unfold StoreSafe at hexposed
  push Not at hexposed
  obtain ⟨m, msg, hrun, hne, hmsg, hfree⟩ := hexposed
  obtain ⟨hlast, _⟩ := h.loop.ready m msg hrun hne hmsg
  let p := msg.message.partition
  have hfreed : s.loop.freed p = s.loop.fifo p := by
    apply List.takeWhile_eq_self_iff.mpr
    intro m' hm'
    obtain ⟨msg', hmsg', _⟩ := h.loop.filed.stored p m' hm'
    simp [freeAt, hmsg', MyMessage.free, hfree m' hm' msg' hmsg']
  have hmem : m ∈ s.loop.fifo p := List.mem_of_getLast? hlast
  obtain ⟨hstored, _⟩ := storeOffset_stored h.filed hstore
  obtain ⟨_, _, hpending, hrunning, _⟩ := hstored.frame
  obtain ⟨c, hc, rfl, _⟩ := h.consumed_of_fifo hmem
  refine ⟨c, hc, ?_, ?_⟩
  · rw [← h.tagged c hc msg hmsg]
    exact hstored.commits_last (by rw [hfreed]; exact hlast) hmsg
  · intro hdone
    apply hne
    rw [← hpending]
    exact hdone (hrunning.trans hrun)

/-- In every interleaving whose calls of `store_offset` are made in safe
states: when offset `k` of a partition has been committed, every consumed
message of that partition up to `k` has been handled by every processor, and
its feed waits for no feedcode, in that state and in all later ones. A call in
a state that is not safe breaks this at once, and it does return if the messages have
feeds. -/
theorem no_commit_before_processing (processors : List Processor)
    (hone : processors.filterMap Processor.deficiency? = [DeficiencyProcessor.fresh])
    (s : World) (hreach : Reachable StoreSafe processors s) :
    (∀ k ∈ s.loop.commits, ∀ c ∈ s.consumed, c.message.partition = k.partition →
      c.message.offset ≤ k.offset → s.loop.Completed c.addr ∧
        ∀ code, ∀ r ∈ s.loop.queueOf code, r.addr ≠ c.feedAddr) ∧
    (¬ s.loop.StoreSafe →
      (∀ l', s.loop.storeOffset = .ok l' →
        ∃ k ∈ l'.commits, ∃ c ∈ s.consumed, c.message.partition = k.partition ∧
          c.message.offset ≤ k.offset ∧ ¬ l'.Completed c.addr) ∧
      (s.loop.Built → ∃ l', s.loop.storeOffset = .ok l')) := by
  obtain ⟨d, hinv⟩ := hreach.inv hone
  constructor
  · intro k hk c hc hpart hle
    exact hinv.settled (hinv.covered k hk c hc hpart hle)
  · intro hexposed
    refine ⟨?_, fun hbuilt => hbuilt.storeOffset_ok hinv.filed⟩
    intro l' hstore
    obtain ⟨c, hc, hcommit, hnot⟩ := hinv.store_exposed hexposed hstore
    exact ⟨c.message, hcommit, c, hc, rfl, le_rfl, hnot⟩

/-- A whole iteration of the loop, then a call: the message is committed, and
it is settled. -/
theorem no_commit_before_processing_iteration :
    ∃ s, Reachable StoreSafe mainProcessors s ∧
      s.loop.commits = [(sampleIncoming 0 0 1).message] ∧
      ∀ c ∈ s.consumed, s.loop.Completed c.addr ∧
        ∀ code, ∀ r ∈ s.loop.queueOf code, r.addr ≠ c.feedAddr := by
  let record := (sampleIncoming 0 0 1).record
  let pushed : World := ⟨(EventLoop.start mainProcessors).consume record, [⟨0, record.message⟩]⟩
  have hrun : ∃ first, pushed.loop.execNext = .ok first ∧ (first.pending ≠ [] ∧
      first.execNext.toOption.any (fun second => second.pending = [] ∧
        second.poll.storeOffset.toOption.any (fun last => last.commits = [record.message]))) := by
    apply exists_ok_of_check
    decide +kernel
  obtain ⟨first, hfirst, hmore, hrest⟩ := hrun
  obtain ⟨second, hsecond, hdone, hlast⟩ := exists_ok_of_check hrest
  obtain ⟨last, hstore, hcommits⟩ := exists_ok_of_check hlast
  have hconsume : Step StoreSafe (World.start mainProcessors) pushed :=
    Step.consume (World.start mainProcessors) record rfl (by
      intro c hc
      cases hc)
  have hreach : Reachable StoreSafe mainProcessors ⟨last, pushed.consumed⟩ := by
    refine ((((Relation.ReflTransGen.single hconsume).tail
      (Step.exec pushed first (by decide) hfirst)).tail
      (Step.exec ⟨first, pushed.consumed⟩ second hmore hsecond)).tail
      (Step.poll ⟨second, pushed.consumed⟩ hdone)).tail
      (Step.store ⟨second.poll, pushed.consumed⟩ last ?_ hstore)
    intro m msg hidle
    cases hidle
  refine ⟨⟨last, pushed.consumed⟩, hreach, hcommits, ?_⟩
  intro c hc
  have hall := (no_commit_before_processing mainProcessors rfl _ hreach).1 record.message
    (by rw [hcommits]; exact List.mem_singleton_self _) c hc
  rw [List.mem_singleton.mp hc] at hall ⊢
  exact hall rfl le_rfl

/-- Between the push and the first `exec`, `store_offset` commits and deletes
the message. -/
theorem commit_before_processing :
    ∃ s, Reachable (fun _ => True) mainProcessors s ∧
      ∃ k ∈ s.loop.commits, ∃ c ∈ s.consumed, c.message.partition = k.partition ∧
        c.message.offset ≤ k.offset ∧ ¬ s.loop.Completed c.addr := by
  let record := (sampleIncoming 0 0 1).record
  let pushed : World := ⟨(EventLoop.start mainProcessors).consume record, [⟨0, record.message⟩]⟩
  have hstore : ∃ l', pushed.loop.storeOffset = .ok l' ∧
      (l'.commits = [record.message] ∧ l'.running = some 0 ∧ ¬ l'.pending = []) := by
    apply exists_ok_of_check
    decide +kernel
  obtain ⟨l', hstore, hcommits, hrunning, hpending⟩ := hstore
  have hconsume : Step (fun _ => True) (World.start mainProcessors) pushed :=
    Step.consume (World.start mainProcessors) record rfl (by
      intro c hc
      cases hc)
  refine ⟨⟨l', pushed.consumed⟩, ?_, record.message, ?_, ⟨0, record.message⟩, ?_, rfl, le_rfl, ?_⟩
  · exact (Relation.ReflTransGen.single hconsume).tail (Step.store pushed l' trivial hstore)
  · rw [hcommits]
    exact List.mem_singleton_self _
  · exact List.mem_singleton_self _
  · intro hdone
    exact hpending (hdone hrunning)

end OLog
