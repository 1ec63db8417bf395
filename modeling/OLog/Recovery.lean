import OLog.Monitor
import OLog.Topics

/-!
What a restart brings back. The broker delivers a partition again from the
committed position on. At any time, in any order of the steps of the two threads,
these are the messages that are still in the partition's queue: nothing that waits
in a context is lost, and nothing that was deleted is delivered twice.
-/

namespace OLog

open Lib World EventLoop

/-- The committed positions cover what was deleted. -/
structure World.Durable (w : World) : Prop extends World.Sound w where
  covered : w.Covered
  topic : ∀ c ∈ w.consumed, ∀ c' ∈ w.consumed, c.message.topic = c'.message.topic

section Steps

variable {w : World}

theorem World.Durable.consume (h : w.Durable) (record : Record)
    (horder : InOrder w.consumed record.message) :
    World.Durable ⟨w.loop.consume record,
      w.consumed ++ [⟨w.loop.heap.brk, record.message⟩]⟩ := by
  have hsound := h.toSound.consume record (fun c hc hsame => (horder c hc).2 hsame.2)
  refine ⟨hsound, ?_, ?_⟩
  · rw [hsound.covered_iff]
    intro c hc hgone
    change c.addr ∉ (w.loop.consume record).fifo c.message.partition at hgone
    rw [consume_fifo] at hgone
    rcases List.mem_append.mp hc with hc | hc
    · refine h.covered_iff.mp h.covered c hc ?_
      split_ifs at hgone
      · exact fun hmem => hgone (List.mem_append_left _ hmem)
      · exact hgone
    · rw [List.mem_singleton.mp hc] at hgone
      simp at hgone
  · intro c hc c' hc'
    rcases List.mem_append.mp hc with hc | hc <;> rcases List.mem_append.mp hc' with hc' | hc'
    · exact h.topic c hc c' hc'
    · rw [List.mem_singleton.mp hc']
      exact (horder c hc).1
    · rw [List.mem_singleton.mp hc]
      exact (horder c' hc').1.symm
    · rw [List.mem_singleton.mp hc, List.mem_singleton.mp hc']

theorem World.Durable.steady {l' : EventLoop} (h : w.Durable) (hsteady : w.loop.Steady l') :
    World.Durable {w with loop := l'} := by
  have hsound := h.toSound.steady hsteady
  refine ⟨hsound, ?_, h.topic⟩
  rw [hsound.covered_iff]
  simp only [hsteady.fifo, hsteady.commits]
  exact h.covered_iff.mp h.covered

theorem World.Durable.store {l' : EventLoop} (h : w.Durable)
    (hstored : StoredOn w.loop w.loop.offset.keys l') : World.Durable {w with loop := l'} := by
  refine ⟨h.toSound.store hstored, (h.covered_store_iff h.covered hstored).mpr ?_, h.topic⟩
  intro p _ m hm
  obtain ⟨last, hlast⟩ : ∃ last, (w.loop.freed p).getLast? = some last :=
    Option.isSome_iff_exists.mp (List.getLast?_isSome.mpr (List.ne_nil_of_mem hm))
  have hmem := w.loop.freed_subset p hm
  have hlastMem := w.loop.freed_subset p (List.mem_of_getLast? hlast)
  obtain ⟨c, hc, rfl, hp⟩ := h.consumed_of_fifo hmem
  obtain ⟨c', hc', rfl, hp'⟩ := h.consumed_of_fifo hlastMem
  subst hp
  rw [hlast, Option.bind_some, h.topicAt hc hmem, h.topicAt hc' (by rw [hp']; exact hlastMem),
    h.topic c hc c' hc']

end Steps

theorem World.start_durable (processors : List Processor) : (World.start processors).Durable := by
  refine ⟨World.start_sound processors, ?_, ?_⟩
  · intro c hc
    cases hc
  · intro c hc
    cases hc

theorem World.Reachable.durable {processors : List Processor}
    (hone : processors.filterMap Processor.deficiency? = [DeficiencyProcessor.fresh])
    {w : World} (h : World.Reachable (fun _ => True) processors w) :
    w.Durable ∧ ∃ d, w.loop.Inv d := by
  induction h with
  | refl => exact ⟨World.start_durable processors, _, EventLoop.start_inv hone⟩
  | tail _ hstep ih =>
      obtain ⟨hdurable, d, hinv⟩ := ih
      cases hstep with
      | consume record hidle horder =>
          exact ⟨hdurable.consume record horder, d, consume_inv hinv record⟩
      | exec l' hpending hexec =>
          obtain ⟨hsteady, hinv'⟩ := execNext_inv hinv hexec
          exact ⟨hdurable.steady hsteady, hinv'⟩
      | poll hdone => exact ⟨hdurable.steady ⟨Heap.Kept.refl _, rfl, rfl⟩, d, poll_inv hinv⟩
      | store l' _ hstore =>
          obtain ⟨hstored, hinv'⟩ := storeOffset_inv hinv hstore
          exact ⟨hdurable.store hstored, d, hinv'⟩

namespace EventLoop

/-- One topic, and growing offsets in each partition. -/
def InSequence (records : List Record) : Prop :=
  (records.map Record.message).Pairwise (fun a b =>
    a.topic = b.topic ∧ (a.partition = b.partition → a.offset < b.offset))

instance (records : List Record) : Decidable (InSequence records) := by
  unfold InSequence
  infer_instance

/-- What a run consumes is noted with the addresses of the messages. -/
theorem Ran.world {processors : List Processor} {records : List Record} {l : EventLoop}
    (h : Ran processors records l) (horder : InSequence records) :
    ∃ consumed, World.Reachable (fun _ => True) processors ⟨l, consumed⟩ ∧
      consumed.map Consumed.message = records.map Record.message := by
  induction h with
  | start => exact ⟨[], Relation.ReflTransGen.refl, rfl⟩
  | consume _ record hidle ih =>
      rw [InSequence, List.map_append, List.pairwise_append] at horder
      obtain ⟨hbefore, -, hnext⟩ := horder
      obtain ⟨consumed, hreach, hmessages⟩ := ih hbefore
      refine ⟨_, hreach.tail (World.Step.consume ⟨_, consumed⟩ record hidle ?_), ?_⟩
      · intro c hc
        have hmem : c.message ∈ consumed.map Consumed.message := List.mem_map_of_mem hc
        rw [hmessages] at hmem
        exact hnext c.message hmem record.message (List.mem_singleton_self _)
      · rw [List.map_append, List.map_append, hmessages]
        rfl
  | exec _ l' hpending hexec ih =>
      obtain ⟨consumed, hreach, hmessages⟩ := ih horder
      exact ⟨consumed, hreach.tail (World.Step.exec ⟨_, consumed⟩ l' hpending hexec), hmessages⟩
  | poll _ hdone ih =>
      obtain ⟨consumed, hreach, hmessages⟩ := ih horder
      exact ⟨consumed, hreach.tail (World.Step.poll ⟨_, consumed⟩ hdone), hmessages⟩
  | store _ l' hstore ih =>
      obtain ⟨consumed, hreach, hmessages⟩ := ih horder
      exact ⟨consumed, hreach.tail (World.Step.store ⟨_, consumed⟩ l' trivial hstore), hmessages⟩

/-- Every message object was made from a consumed record. -/
theorem Ran.made {records : List Record} {l : EventLoop} (h : Ran mainProcessors records l)
    {m : Nat} {msg : MyMessage} (hmsg : l.heap.get? m = some msg) :
    ∃ record ∈ records, ∃ addr, msg.content = (record.toMessage addr).content := by
  induction h generalizing m msg with
  | start => cases hmsg
  | consume _ record _ ih =>
      rw [consume_heap] at hmsg
      split_ifs at hmsg with hnew
      · cases hmsg
        exact ⟨record, by simp, _, rfl⟩
      · obtain ⟨record', hrecord, hcontent⟩ := ih hmsg
        exact ⟨record', List.mem_append_left _ hrecord, hcontent⟩
  | exec hran l' _ hexec ih =>
      obtain ⟨d, hinv⟩ := hran.reachable.inv rfl
      obtain ⟨hsteady, -⟩ := execNext_inv hinv hexec
      obtain ⟨old, hold, hsame⟩ := hsteady.heap.symm.get hmsg
      obtain ⟨record, hrecord, addr, hcontent⟩ := ih hold
      exact ⟨record, hrecord, addr, hsame.symm.trans hcontent⟩
  | poll _ _ ih => exact ih hmsg
  | store hran l' hstore ih =>
      obtain ⟨d, hinv⟩ := hran.reachable.inv rfl
      exact ih ((storeOffset_inv hinv hstore).1.sub hmsg).1

/-- The messages in a partition's queue. -/
def queued (l : EventLoop) (p : Int) : List KafkaMessage :=
  (l.fifo p).filterMap (fun m => (l.heap.get? m).map MyMessage.message)

/-- The message is at or behind the committed position. -/
def Redelivers (l : EventLoop) (k : KafkaMessage) : Prop :=
  ∀ pos ∈ position l.commits k.topic k.partition, pos ≤ k.offset

instance (l : EventLoop) (k : KafkaMessage) : Decidable (l.Redelivers k) := by
  unfold Redelivers
  infer_instance

end EventLoop

theorem World.Durable.redelivers_iff {w : World} (h : w.Durable) {c : Consumed}
    (hc : c ∈ w.consumed) :
    w.loop.Redelivers c.message ↔ c.addr ∈ w.loop.fifo c.message.partition := by
  have hcovers := position_covers_iff h.advancing c.message
  have hposition : w.loop.Redelivers c.message ↔
      ¬ ∃ pos, position w.loop.commits c.message.topic c.message.partition = some pos ∧
        c.message.offset < pos := by
    simp [Redelivers]
  rw [hposition, hcovers]
  constructor
  · intro hnone
    by_contra hgone
    exact hnone (h.covered_iff.mp h.covered c hc hgone)
  · rintro hqueued ⟨k, hk, hsame, hle⟩
    obtain ⟨c', hc', rfl, hgone⟩ := h.known k hk
    have hlt := h.addr_lt hc' hgone (by rw [hsame.2]; exact hqueued)
    have hoffset := h.offset_lt hc' hc hlt hsame
    omega

/-- What was consumed of a partition and is not in the queue has no object any more. -/
theorem World.Durable.queued_eq {w : World} (h : w.Durable) (p : Int) :
    w.loop.queued p = (w.consumed.map Consumed.message).filter (fun k =>
      k.partition = p ∧ w.loop.Redelivers k) := by
  obtain ⟨gone, hsplit, hgone⟩ := h.split p
  have hnone : gone.filterMap (fun m => (w.loop.heap.get? m).map MyMessage.message) = [] := by
    apply List.filterMap_eq_nil_iff.mpr
    intro m hm
    rw [hgone m hm]
    rfl
  have hall : w.loop.queued p = ((w.consumed.filter (fun c => c.message.partition = p)).map
      Consumed.addr).filterMap (fun m => (w.loop.heap.get? m).map MyMessage.message) := by
    rw [hsplit, List.filterMap_append, hnone, List.nil_append]
    rfl
  rw [hall, List.filterMap_map, List.filterMap_filter, ← List.filterMap_eq_filter,
    List.filterMap_map]
  apply List.filterMap_congr
  intro c hc
  by_cases hp : c.message.partition = p
  · subst hp
    by_cases hqueued : c.addr ∈ w.loop.fifo c.message.partition
    · obtain ⟨msg, hmsg, -⟩ := h.filed.stored _ _ hqueued
      simp [hmsg, h.tagged c hc msg hmsg, (h.redelivers_iff hc).mpr hqueued]
    · have hmem : c.addr ∈ (w.consumed.filter (fun c' =>
          c'.message.partition = c.message.partition)).map Consumed.addr :=
        List.mem_map.mpr ⟨c, List.mem_filter.mpr ⟨hc, by simp⟩, rfl⟩
      rw [hsplit] at hmem
      have habsent := hgone _ ((List.mem_append.mp hmem).resolve_right hqueued)
      simp [Option.guard, habsent, mt (h.redelivers_iff hc).mp hqueued]
  · simp [Option.guard, hp]

namespace EventLoop

/-- After a restart at any time the broker delivers of each partition what is
still in its queue, in the same order. Every feed that waits in a context is among
it. Positions never go back. -/
theorem restart_redelivers {records : List Record} {l : EventLoop}
    (h : Ran mainProcessors records l) (horder : InSequence records) :
    (∀ p, (records.map Record.message).filter (fun k => k.partition = p ∧ l.Redelivers k) =
      l.queued p) ∧
    (∀ code, ∀ r ∈ l.queueOf code, ∃ record ∈ records,
      record.feed = some (.statistics r.feed) ∧ l.Redelivers record.message) ∧
    Advancing l.commits := by
  obtain ⟨consumed, hreach, hmessages⟩ := h.world horder
  obtain ⟨hdurable, d, hinv⟩ := World.Reachable.durable rfl hreach
  refine ⟨?_, ?_, hdurable.advancing⟩
  · intro p
    rw [← hmessages]
    exact (hdurable.queued_eq p).symm
  · intro code r hr
    obtain ⟨-, m, howns⟩ := hinv.owned.queued code r hr
    obtain ⟨msg, hmsg, href, -⟩ := howns.held
    obtain ⟨record, hrecord, addr, hcontent⟩ := h.made hmsg
    have hmessage : msg.message = record.message :=
      (content_eq hcontent).1.trans (record.toMessage_message addr).1
    have hfeed : record.feed = some (.statistics r.feed) := by
      rw [ref?_eq_of_content hcontent, record.ref?_toMessage, Option.map_eq_some_iff] at href
      obtain ⟨sf, hsf, rfl⟩ := href
      obtain ⟨feed, hfeed, hstatistics⟩ := Option.bind_eq_some_iff.mp hsf
      cases feed with
      | price pf => cases hstatistics
      | statistics sf' =>
          cases hstatistics
          exact hfeed
    have hqueued := hinv.filed.queued m msg hmsg
    obtain ⟨c, hc, rfl, hpartition⟩ := hdurable.consumed_of_fifo hqueued
    have htagged : msg.message = c.message := hdurable.tagged c hc msg hmsg
    refine ⟨record, hrecord, hfeed, ?_⟩
    rw [← hmessage, htagged]
    exact (hdurable.redelivers_iff hc).mpr (hpartition ▸ hqueued)

/-- The first tick is committed. The third one waits for the second, and a restart
brings it back. -/
theorem restart_redelivers_waiting :
    ∃ l, run mainProcessors [.iterate (sampleIncoming 0 0 1), .iterate (sampleIncoming 1 2 3),
        .storeOffset] = .ok l ∧
      (l.queueOf "rb1000").length = 1 ∧ l.queued 0 = [⟨"feed", 0, 1⟩] ∧
      ∀ code, ∀ r ∈ l.queueOf code, ∃ record ∈ [(sampleIncoming 0 0 1).record,
        (sampleIncoming 1 2 3).record], record.feed = some (.statistics r.feed) ∧
          l.Redelivers record.message := by
  have hcheck : ∃ l, run mainProcessors [.iterate (sampleIncoming 0 0 1),
      .iterate (sampleIncoming 1 2 3), .storeOffset] = .ok l ∧
        (l.queueOf "rb1000").length = 1 ∧ l.queued 0 = [⟨"feed", 0, 1⟩] := by
    apply exists_ok_of_check
    decide +kernel
  obtain ⟨l, hrun, hwaiting, hqueued⟩ := hcheck
  obtain ⟨hran, -⟩ := Ran.of_run rfl hrun
  have horder : InSequence ((([.iterate (sampleIncoming 0 0 1), .iterate (sampleIncoming 1 2 3),
      .storeOffset] : List Event)).filterMap Event.record?) := by
    decide
  exact ⟨l, hrun, hwaiting, hqueued, (restart_redelivers hran horder).2.1⟩

end EventLoop

end OLog
