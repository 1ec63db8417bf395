import OLog.LoopInvariant

/-!
Whole iterations. On a message that parses, an iteration cannot fail, and
seen from the store, the contexts and the DeficiencyProcessor it is that
processor's `exec` on the new message: the other processors only look at the
message. Runs consist of iterations and calls of `store_offset` between them.
-/

namespace OLog

open Lib DeficiencyProcessor

/-- The content of a message that parsed. -/
def MyMessage.Carries (msg : MyMessage) (feed : Feed) : Prop :=
  (∃ addr, msg.feed = .object addr feed) ∧ msg.type = feed.type

theorem Incoming.toMessage_carries (incoming : Incoming) (addr : Nat) :
    (incoming.toMessage addr).Carries incoming.feed := ⟨⟨addr, rfl⟩, rfl⟩

theorem MyMessage.Carries.of_content {msg msg' : MyMessage} {feed : Feed} (h : msg.Carries feed)
    (hcontent : msg'.content = msg.content) : msg'.Carries feed := by
  obtain ⟨_, hfeed, htype⟩ := content_eq hcontent
  obtain ⟨⟨addr, haddr⟩, hkind⟩ := h
  exact ⟨⟨addr, hfeed.trans haddr⟩, htype.trans hkind⟩

/-- A new message that parses is executed without fault. -/
theorem exec_incoming {s : ExecState} (hown : s.Owned) {m addr : Nat} {incoming : Incoming}
    (hmsg : s.heap.get? m = some (incoming.toMessage addr)) : ∃ t, exec s m = .ok t := by
  obtain ⟨message, feed⟩ := incoming
  cases feed with
  | price pf => exact ⟨_, exec_price hmsg rfl⟩
  | statistics sf =>
      have href := toMessage_statistics_ref? message sf addr
      obtain ⟨t, _, hexec, _⟩ := exec_executed hown hmsg href rfl
      exact ⟨t, hexec⟩

/-- The ValidityProcessor accepts it too. -/
theorem validity_exec {v : ValidityProcessor} {msg : MyMessage} {feed : Feed}
    (h : msg.Carries feed) : ∃ v', v.exec msg = .ok v' := by
  obtain ⟨⟨addr, hfeed⟩, htype⟩ := h
  cases feed with
  | statistics sf => exact ⟨_, v.exec_statistics htype⟩
  | price pf =>
      unfold ValidityProcessor.exec
      rw [htype, hfeed]
      exact ⟨_, rfl⟩

namespace EventLoop

/-- In the middle of an iteration that started as `l` with message `m`: the
DeficiencyProcessor `d` has not yet seen the message, or it has, with outcome
`t`, and nothing else has changed. -/
structure Midway (l : EventLoop) (m : Nat) (d : DeficiencyProcessor) (feed : Feed)
    (t : ExecState) (s : EventLoop) : Prop where
  running : s.running = some m
  offset : s.offset = l.offset
  commits : s.commits = l.commits
  carries : ∃ msg, s.heap.get? m = some msg ∧ msg.Carries feed
  phase :
    (s.processed.filterMap Processor.deficiency? = [] ∧
        s.pending.filterMap Processor.deficiency? = [d] ∧
        s.heap = l.heap ∧ s.contextMap = l.contextMap) ∨
      (s.processed.filterMap Processor.deficiency? = [t.self] ∧
        s.pending.filterMap Processor.deficiency? = [] ∧
        s.heap = t.heap ∧ s.contextMap = t.contextMap)

theorem Midway.execNext {l s : EventLoop} {m : Nat} {d : DeficiencyProcessor} {feed : Feed}
    {t : ExecState} (h : Midway l m d feed t s) (hexec : exec (l.execState d) m = .ok t)
    (hkept : l.heap.Kept t.heap) {processor : Processor} {pending : List Processor}
    (hpending : s.pending = processor :: pending) :
    ∃ s', s.execNext = .ok s' ∧ Midway l m d feed t s' ∧ s'.pending = pending := by
  obtain ⟨msg, hmsg, hcarries⟩ := h.carries
  cases processor with
  | validity v =>
      obtain ⟨v', hv⟩ := validity_exec (v := v) hcarries
      refine ⟨s.advance s.heap s.contextMap (.validity v') pending, ?_,
        ⟨h.running, h.offset, h.commits, ⟨msg, hmsg, hcarries⟩, ?_⟩, rfl⟩
      · rw [execNext_validity h.running hpending hmsg, hv]
        rfl
      · have hphase := h.phase
        rw [hpending] at hphase
        have hsame : (s.advance s.heap s.contextMap (.validity v') pending).processed.filterMap
            Processor.deficiency? = s.processed.filterMap Processor.deficiency? := by
          simp [EventLoop.advance, List.filterMap_append, Processor.deficiency?]
        rw [hsame]
        exact hphase
  | deficiency d₀ =>
      have hphase := h.phase
      rw [hpending] at hphase
      rcases hphase with ⟨hdone, hleft, hheap, hcontext⟩ | ⟨_, hleft, _⟩
      · simp only [List.filterMap_cons, Processor.deficiency?] at hleft
        obtain ⟨rfl, hrest⟩ := List.cons.inj hleft
        have hstate : s.execState d₀ = l.execState d₀ := by
          unfold execState
          rw [hheap, hcontext]
        rw [hheap] at hmsg
        obtain ⟨msg', hmsg', hcontent⟩ := hkept.get hmsg
        refine ⟨s.advance t.heap t.contextMap (.deficiency t.self) pending, ?_,
          ⟨h.running, h.offset, h.commits, ⟨msg', hmsg', hcarries.of_content hcontent⟩,
            Or.inr ⟨?_, hrest, rfl, rfl⟩⟩, rfl⟩
        · rw [execNext_deficiency h.running hpending, hstate, hexec]
          rfl
        · simp [EventLoop.advance, List.filterMap_append, hdone, Processor.deficiency?]
      · simp [Processor.deficiency?] at hleft

/-- What an iteration did with a message that parses; `t` is the outcome of
the DeficiencyProcessor's `exec`. -/
structure Iterated (l : EventLoop) (d : DeficiencyProcessor) (incoming : Incoming)
    (t : ExecState) (l' : EventLoop) : Prop where
  exec : DeficiencyProcessor.exec ((l.consume incoming.record).execState d) l.heap.brk = .ok t
  heap : l'.heap = t.heap
  contextMap : l'.contextMap = t.contextMap
  only : l'.processors.filterMap Processor.deficiency? = [t.self]
  offset : l'.offset = (l.consume incoming.record).offset
  commits : l'.commits = l.commits
  running : l'.running = none

theorem consume_incoming (l : EventLoop) (incoming : Incoming) :
    (l.consume incoming.record).heap.get? l.heap.brk =
      some (incoming.toMessage (l.heap.brk + 1)) := by
  rw [consume_heap, if_pos rfl]
  rfl

theorem iterate_iterated {l : EventLoop} {d : DeficiencyProcessor} (h : l.Inv d)
    (incoming : Incoming) :
    ∃ l' t, l.iterate incoming.record = .ok l' ∧ Iterated l d incoming t l' := by
  let first := l.consume incoming.record
  have hinv : first.Inv d := consume_inv h incoming.record
  have hmsg : first.heap.get? l.heap.brk = some (incoming.toMessage (l.heap.brk + 1)) :=
    l.consume_incoming incoming
  obtain ⟨t, hexec⟩ := exec_incoming (s := first.execState d) hinv.owned hmsg
  obtain ⟨_, hkept⟩ := exec_keeps hinv.owned hmsg rfl hexec
  have hrun := foldlM_history (fun (s : EventLoop) (_ : Processor) => s.execNext)
    (s := first)
    (I := fun seen s => Midway first l.heap.brk d incoming.feed t s ∧
      s.pending.length + seen.length = l.processors.length) l.processors
    ⟨⟨rfl, rfl, rfl, ⟨_, hmsg, incoming.toMessage_carries _⟩,
      Or.inl ⟨rfl, h.only, rfl, rfl⟩⟩, by simp [first, consume]⟩
    (by
      rintro seen p s hpre ⟨hmid, hlength⟩
      have hlt : seen.length < l.processors.length := by
        have := hpre.length_le
        simp only [List.length_append, List.length_singleton] at this
        omega
      cases hpending : s.pending with
      | nil =>
          rw [hpending, List.length_nil] at hlength
          omega
      | cons processor pending =>
          obtain ⟨s', hs', hmid', hpending'⟩ := hmid.execNext hexec hkept hpending
          refine ⟨s', hs', hmid', ?_⟩
          rw [hpending, List.length_cons] at hlength
          rw [hpending', List.length_append, List.length_singleton]
          omega)
  obtain ⟨s, hs, hmid, hlength⟩ := hrun
  have hpending : s.pending = [] := List.length_eq_zero_iff.mp (by omega)
  have hphase := hmid.phase
  rw [hpending] at hphase
  rcases hphase with ⟨_, hno, _⟩ | ⟨hdone, _, hheap, hcontext⟩
  · cases hno
  · refine ⟨s.poll, t, ?_, hexec, hheap, hcontext, ?_, hmid.offset, hmid.commits, rfl⟩
    · unfold iterate
      rw [hs]
      rfl
    · simp [EventLoop.processors, poll, hpending, hdone]

theorem Iterated.inv {l l' : EventLoop} {d : DeficiencyProcessor} {incoming : Incoming}
    {t : ExecState} (h : Iterated l d incoming t l') (hinv : l.Inv d) : l'.Inv t.self := by
  have hfirst := consume_inv hinv incoming.record
  obtain ⟨howned, hkept⟩ := exec_keeps hfirst.owned (l.consume_incoming incoming) rfl h.exec
  refine ⟨h.only, ?_, ?_, ?_⟩
  · unfold execState
    rw [h.heap, h.contextMap]
    exact howned
  · apply hfirst.filed.of_kept
    · rw [h.heap]
      exact hkept
    · intro p
      unfold fifo
      rw [h.offset]
  · intro m msg hm
    rw [h.running] at hm
    cases hm

theorem start_built (processors : List Processor) : (start processors).Built := by
  intro m msg hmsg
  cases hmsg

theorem Iterated.built {l l' : EventLoop} {d : DeficiencyProcessor} {incoming : Incoming}
    {t : ExecState} (h : Iterated l d incoming t l') (hinv : l.Inv d) (hbuilt : l.Built) :
    l'.Built := by
  have hfirst := consume_inv hinv incoming.record
  obtain ⟨_, hkept⟩ := exec_keeps hfirst.owned (l.consume_incoming incoming) rfl h.exec
  intro m msg hmsg
  rw [h.heap] at hmsg
  obtain ⟨msg', hmsg', hcontent⟩ := hkept.symm.get hmsg
  obtain ⟨_, hfeed, _⟩ := content_eq hcontent
  unfold MyMessage.Built
  rw [← hfeed]
  change (l.consume incoming.record).heap.get? m = some msg' at hmsg'
  rw [consume_heap] at hmsg'
  split_ifs at hmsg'
  · cases hmsg'
    exact nofun
  · exact hbuilt m msg' hmsg'

inductive Event where
  | iterate (incoming : Incoming)
  | storeOffset

def apply (l : EventLoop) : Event → Except Fault EventLoop
  | .iterate incoming => l.iterate incoming.record
  | .storeOffset => l.storeOffset

/-- The loop after a sequence of iterations and calls of `store_offset`. -/
def run (processors : List Processor) (events : List Event) : Except Fault EventLoop :=
  events.foldlM apply (start processors)

/-- A whole iteration is a sequence of steps of the loop's thread. -/
theorem iterate_reachable {processors : List Processor} {l l' : EventLoop} {record : Record}
    (h : Reachable processors l) (hidle : l.running = none)
    (hiterate : l.iterate record = .ok l') : Reachable processors l' ∧ l'.running = none := by
  obtain ⟨s, hs, hpoll⟩ := bind_eq_ok.mp hiterate
  cases hpoll
  have hrun := foldlM_ok_history
    (I := fun (seen : List Processor) (s : EventLoop) => Reachable processors s ∧
      s.running ≠ none ∧ s.pending = l.processors.drop seen.length) hs
    ⟨h.tail (Step.consume record hidle), by simp [consume], rfl⟩
    (by
      rintro seen p u v _ ⟨hreach, hrunning, hpending⟩ hexec
      obtain ⟨hsame, htail⟩ := execNext_cursor hexec
      refine ⟨?_, by rw [hsame]; exact hrunning, ?_⟩
      · by_cases hne : u.pending = []
        · rw [execNext_idle (Or.inr hne)] at hexec
          cases hexec
          exact hreach
        · exact hreach.tail (Step.exec v hne hexec)
      · rw [htail hrunning, hpending, List.tail_drop, List.length_append, List.length_singleton])
  obtain ⟨hreach, _, hpending⟩ := hrun
  refine ⟨hreach.tail (Step.poll ?_), rfl⟩
  rw [hpending, List.drop_length]

/-- Runs of whole iterations are among the interleavings of the two threads. -/
theorem run_reachable {processors : List Processor}
    (hone : processors.filterMap Processor.deficiency? = [DeficiencyProcessor.fresh])
    {events : List Event} {l : EventLoop}
    (hrun : run processors events = .ok l) : Reachable processors l ∧ l.running = none := by
  apply foldlM_ok_history (I := fun _ l => Reachable processors l ∧ l.running = none) hrun
    ⟨Relation.ReflTransGen.refl, rfl⟩
  rintro seen event u v _ ⟨hreach, hidle⟩ happly
  cases event with
  | iterate incoming => exact iterate_reachable hreach hidle happly
  | storeOffset =>
      obtain ⟨d, hinv⟩ := hreach.inv hone
      obtain ⟨hstored, _⟩ := storeOffset_inv hinv happly
      obtain ⟨_, _, _, hrunning, _⟩ := hstored.frame
      exact ⟨hreach.tail (Step.store v happly), hrunning.trans hidle⟩

/-- The invariant between iterations over messages that parse. -/
structure Idle (l : EventLoop) (d : DeficiencyProcessor) : Prop extends l.Inv d where
  idle : l.running = none
  built : l.Built

theorem Iterated.idle {l l' : EventLoop} {d : DeficiencyProcessor} {incoming : Incoming}
    {t : ExecState} (h : Iterated l d incoming t l') (hidle : l.Idle d) : l'.Idle t.self :=
  ⟨h.inv hidle.toInv, h.running, h.built hidle.toInv hidle.built⟩

theorem apply_idle {l : EventLoop} {d : DeficiencyProcessor} (h : l.Idle d) (event : Event) :
    ∃ l' d', l.apply event = .ok l' ∧ l'.Idle d' := by
  cases event with
  | iterate incoming =>
      obtain ⟨l', t, hl', hit⟩ := iterate_iterated h.toInv incoming
      exact ⟨l', t.self, hl', hit.idle h⟩
  | storeOffset =>
      obtain ⟨l', hl'⟩ := h.built.storeOffset_ok h.filed
      obtain ⟨hstored, hinv⟩ := storeOffset_inv h.toInv hl'
      obtain ⟨_, _, _, hrunning, _⟩ := hstored.frame
      exact ⟨l', d, hl', hinv, hrunning.trans h.idle, hstored.built h.built⟩

/-- A loop with one fresh DeficiencyProcessor among its processors. -/
theorem run_idle {processors : List Processor}
    (hone : processors.filterMap Processor.deficiency? = [DeficiencyProcessor.fresh])
    (events : List Event) : ∃ l d, run processors events = .ok l ∧ l.Idle d := by
  have hrun := foldlM_invariant apply (s := start processors)
    (I := fun l => ∃ d, l.Idle d) events
    ⟨_, start_inv hone, rfl, start_built processors⟩
    (by
      rintro event l _ ⟨d, hidle⟩
      obtain ⟨l', d', hl', hidle'⟩ := apply_idle hidle event
      exact ⟨l', hl', d', hidle'⟩)
  obtain ⟨l, hl, d, hidle⟩ := hrun
  exact ⟨l, d, hl, hidle⟩

/-- No feed waits, for any feedcode. -/
def NoneWaiting (l : EventLoop) : Prop :=
  ∀ entry ∈ l.contextMap.myMap.entries, entry.2.queue.toList = []

instance (l : EventLoop) : Decidable l.NoneWaiting := by
  unfold NoneWaiting
  infer_instance

theorem NoneWaiting.queueOf {l : EventLoop} (h : l.NoneWaiting) (code : String) :
    l.queueOf code = [] := by
  unfold EventLoop.queueOf
  cases hget : l.contextMap.getContext code with
  | none => rfl
  | some context =>
      have hmem := (OrdMap.mem_iff_lookup l.contextMap.myMap.sorted code context).mpr hget
      exact h _ hmem

end EventLoop

end OLog
