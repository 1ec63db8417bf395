import OLog.Execution
import OLog.StoreOffset

/-!
The joint invariant of the event loop: the processor's ownership of waiting
feeds, the agreement of partition queues and message store, and what is known
of the message at hand in the middle of an iteration. Every step of the loop's
thread keeps it if it does not fault, and so does every call of `store_offset`,
even one that deletes the message at hand.
-/

namespace OLog

open Lib DeficiencyProcessor

/-- A message apart from its live count. -/
def MyMessage.content (msg : MyMessage) : MyMessage := {msg with live := 0}

theorem settle_content (l : List FeedRef) (msg : MyMessage) :
    (settle l msg).content = msg.content := by
  unfold settle
  split_ifs <;> rfl

/-- The same messages at the same addresses, up to live counts. -/
structure Heap.Kept (h h' : Heap) : Prop where
  brk : h'.brk = h.brk
  content : ∀ a, (h'.get? a).map MyMessage.content = (h.get? a).map MyMessage.content

theorem Heap.Kept.refl (h : Heap) : h.Kept h := ⟨rfl, fun _ => rfl⟩

theorem Heap.Kept.get {h h' : Heap} (hkept : h.Kept h') {a : Nat} {msg : MyMessage}
    (hmsg : h.get? a = some msg) :
    ∃ msg', h'.get? a = some msg' ∧ msg'.content = msg.content := by
  have hcontent := hkept.content a
  rw [hmsg] at hcontent
  exact Option.map_eq_some_iff.mp hcontent

theorem Heap.Kept.symm {h h' : Heap} (hkept : h.Kept h') : h'.Kept h :=
  ⟨hkept.brk.symm, fun a => (hkept.content a).symm⟩

theorem content_eq {msg msg' : MyMessage} (h : msg'.content = msg.content) :
    msg'.message = msg.message ∧ msg'.feed = msg.feed ∧ msg'.type = msg.type := by
  simp only [MyMessage.content, MyMessage.mk.injEq] at h
  exact ⟨h.1, h.2.2.1, h.2.2.2⟩

theorem ref?_eq_of_content {msg msg' : MyMessage} (h : msg'.content = msg.content) :
    msg'.ref? = msg.ref? := by
  obtain ⟨_, hfeed, htype⟩ := content_eq h
  unfold MyMessage.ref?
  rw [hfeed, htype]

theorem Executed.kept {s t : ExecState} {m : Nat} {r : FeedRef} {l : List FeedRef}
    (h : Executed s m r l t) : s.heap.Kept t.heap := by
  refine ⟨h.brk, ?_⟩
  intro a
  rw [h.heap, Option.map_map]
  congr 1
  funext msg
  simp only [Function.comp_apply, settle_content]
  split_ifs <;> rfl

/-- Without a Statistics feed, an execution that succeeds only clears the
result. -/
theorem exec_of_no_ref {s t : ExecState} {m : Nat} {msg : MyMessage}
    (hmsg : s.heap.get? m = some msg) (href : msg.ref? = none) (hexec : exec s m = .ok t) :
    t = s.setRes s.self.res.clear := by
  have hderef : (s.setRes s.self.res.clear).heap.deref m = .ok msg := Heap.deref_of_get? hmsg
  rw [exec_eq] at hexec
  simp only [hderef, ok_bind] at hexec
  unfold MyMessage.ref? at href
  split at hexec
  · cases hexec
    rfl
  · rename_i htype
    rw [htype] at href
    split at hexec
    · rename_i hfeed
      rw [hfeed] at href
      cases href
    · cases hexec
  · cases hexec
    rfl

/-- Whatever a message that is not live yet carries: a successful execution
keeps ownership and the messages. -/
theorem exec_keeps {s t : ExecState} {m : Nat} {msg : MyMessage} (hown : s.Owned)
    (hmsg : s.heap.get? m = some msg) (hlive : msg.live = 0) (hexec : exec s m = .ok t) :
    t.Owned ∧ s.heap.Kept t.heap := by
  cases href : msg.ref? with
  | none =>
      rw [exec_of_no_ref hmsg href hexec]
      exact ⟨hown.clear, Heap.Kept.refl _⟩
  | some r =>
      obtain ⟨t', l, hexec', hdone⟩ := exec_executed hown hmsg href hlive
      rw [hexec] at hexec'
      cases hexec'
      exact ⟨hdone.owned hown hmsg href hlive, hdone.kept⟩

theorem Heap.WF.of_sub {h h' : Heap} (hwf : h.WF) (hbrk : h'.brk = h.brk)
    (hsub : ∀ a msg, h'.get? a = some msg → h.get? a = some msg) : h'.WF := by
  refine ⟨?_, ?_, ?_⟩
  · intro a msg hmsg
    rw [hbrk]
    exact hwf.below a msg (hsub a msg hmsg)
  · intro a msg r hmsg hr
    rw [hbrk]
    exact hwf.feed_below a msg r (hsub a msg hmsg) hr
  · intro a b ma mb ra rb ha hb hra hrb heq
    exact hwf.feed_inj a b ma mb ra rb (hsub a ma ha) (hsub b mb hb) hra hrb heq

theorem Record.toMessage_message (record : Record) (addr : Nat) :
    (record.toMessage addr).message = record.message ∧ (record.toMessage addr).live = 0 := by
  unfold toMessage
  split <;> exact ⟨rfl, rfl⟩

theorem Record.toMessage_places (record : Record) : Places record.toMessage := by
  intro addr r hr
  obtain ⟨message, feed, type₀⟩ := record
  cases feed with
  | none => cases type₀ <;> cases hr
  | some feed => exact Incoming.toMessage_places ⟨message, feed⟩ addr r hr

namespace EventLoop

def execState (l : EventLoop) (d : DeficiencyProcessor) : ExecState :=
  ⟨l.heap, l.contextMap, d⟩

/-- The feeds that wait for a feedcode. -/
def queueOf (l : EventLoop) (code : String) : List FeedRef :=
  ((l.contextMap.getContext code).map (fun c => c.queue.toList)).getD []

theorem Filed.of_kept {l l' : EventLoop} (h : l.Filed) (hkept : l.heap.Kept l'.heap)
    (hfifo : ∀ p, l'.fifo p = l.fifo p) : l'.Filed := by
  refine ⟨?_, ?_, ?_⟩
  · intro p m hm
    rw [hfifo] at hm
    obtain ⟨msg, hmsg, hp⟩ := h.stored p m hm
    obtain ⟨msg', hmsg', hcontent⟩ := hkept.get hmsg
    exact ⟨msg', hmsg', by rw [(content_eq hcontent).1, hp]⟩
  · intro p
    rw [hfifo]
    exact h.nodup p
  · intro m msg' hmsg'
    obtain ⟨msg, hmsg, hcontent⟩ := hkept.symm.get hmsg'
    rw [hfifo, ← (content_eq hcontent).1]
    exact h.queued m msg hmsg

/-- `d` is the only DeficiencyProcessor of the loop, it owns what waits, queues
and store agree, and the message at hand, as long as a processor has to see it
and it has not been deleted, is the last of its queue, and is not live before
`d` has seen it. -/
structure Inv (l : EventLoop) (d : DeficiencyProcessor) : Prop where
  only : l.processors.filterMap Processor.deficiency? = [d]
  owned : (l.execState d).Owned
  filed : l.Filed
  ready : ∀ m msg, l.running = some m → l.pending ≠ [] → l.heap.get? m = some msg →
    (l.fifo msg.message.partition).getLast? = some m ∧
    (l.pending.filterMap Processor.deficiency? ≠ [] → msg.live = 0)

theorem start_inv {processors : List Processor}
    (h : processors.filterMap Processor.deficiency? = [DeficiencyProcessor.fresh]) :
    (start processors).Inv DeficiencyProcessor.fresh := by
  refine ⟨?_, ⟨Heap.WF.empty, ?_, fun _ => List.nodup_nil⟩, ⟨?_, ?_, ?_⟩, ?_⟩
  · simpa [start, EventLoop.processors] using h
  · intro code r hr
    cases hr
  · intro p m hm
    cases hm
  · intro p
    exact List.nodup_nil
  · intro m msg hmsg
    cases hmsg
  · intro m msg hm
    cases hm

theorem consume_fifo (l : EventLoop) (record : Record) (p : Int) :
    (l.consume record).fifo p =
      if p = record.message.partition then l.fifo p ++ [l.heap.brk] else l.fifo p := by
  have hinsert : (l.consume record).fifo p = if p = record.message.partition then
      l.fifo record.message.partition ++ [l.heap.brk] else l.fifo p :=
    l.fifo_insert record.message.partition _ p
  rw [hinsert]
  split_ifs with hp
  · rw [hp]
  · rfl

theorem consume_heap (l : EventLoop) (record : Record) (a : Nat) :
    (l.consume record).heap.get? a =
      if a = l.heap.brk then some (record.toMessage (l.heap.brk + 1)) else l.heap.get? a :=
  l.heap.alloc_get? record.toMessage a

/-- A new message takes an address that no queue holds. -/
theorem Filed.brk_fresh {l : EventLoop} (h : l.Filed)
    (hfresh : ∀ a msg, l.heap.get? a = some msg → a < l.heap.brk) (p : Int) :
    l.heap.brk ∉ l.fifo p := by
  intro hmem
  obtain ⟨msg, hmsg, _⟩ := h.stored p _ hmem
  have := hfresh _ msg hmsg
  omega

theorem Filed.consume {l : EventLoop} (h : l.Filed)
    (hfresh : ∀ a msg, l.heap.get? a = some msg → a < l.heap.brk) (record : Record) :
    (l.consume record).Filed := by
  obtain ⟨hmessage, _⟩ := record.toMessage_message (l.heap.brk + 1)
  have hbrk := h.brk_fresh hfresh
  refine ⟨?_, ?_, ?_⟩
  · intro p m hm
    rw [consume_fifo] at hm
    have hold : ∀ m ∈ l.fifo p, ∃ msg, (l.consume record).heap.get? m = some msg ∧
        msg.message.partition = p := by
      intro m hm
      obtain ⟨msg, hmsg, hp⟩ := h.stored p m hm
      have hne : m ≠ l.heap.brk := fun heq => hbrk p (heq ▸ hm)
      exact ⟨msg, by rw [consume_heap, if_neg hne, hmsg], hp⟩
    split_ifs at hm with hp
    · rcases List.mem_append.mp hm with hm | hm
      · exact hold m hm
      · rw [List.mem_singleton.mp hm]
        exact ⟨record.toMessage (l.heap.brk + 1), by rw [consume_heap, if_pos rfl],
          by rw [hmessage, hp]⟩
    · exact hold m hm
  · intro p
    rw [consume_fifo]
    split_ifs
    · exact List.nodup_append.mpr ⟨h.nodup p, List.nodup_singleton _,
        fun a ha b hb heq => hbrk p (by
          rw [← List.mem_singleton.mp hb, ← heq]
          exact ha)⟩
    · exact h.nodup p
  · intro m msg hmsg
    rw [consume_heap] at hmsg
    rw [consume_fifo]
    split_ifs at hmsg with hm
    · cases hmsg
      rw [hmessage, if_pos rfl, hm]
      exact List.mem_append_right _ (List.mem_singleton_self _)
    · have hmem := h.queued m msg hmsg
      split_ifs
      · exact List.mem_append_left _ hmem
      · exact hmem

theorem consume_inv {l : EventLoop} {d : DeficiencyProcessor} (h : l.Inv d) (record : Record) :
    (l.consume record).Inv d := by
  obtain ⟨hmessage, hlive⟩ := record.toMessage_message (l.heap.brk + 1)
  refine ⟨h.only, h.owned.alloc record.toMessage_places,
    h.filed.consume h.owned.wf.below record, ?_⟩
  intro m msg hm _ hmsg
  have hbrk : m = l.heap.brk := (Option.some.inj hm).symm
  rw [consume_heap, if_pos hbrk] at hmsg
  cases hmsg
  refine ⟨?_, fun _ => hlive⟩
  rw [hmessage, consume_fifo, if_pos rfl, List.getLast?_concat, hbrk]

theorem poll_inv {l : EventLoop} {d : DeficiencyProcessor} (h : l.Inv d) : l.poll.Inv d := by
  refine ⟨h.only, h.owned, ⟨h.filed.stored, h.filed.nodup, h.filed.queued⟩, ?_⟩
  intro m msg hm
  cases hm

/-- The loop after a processor has handled the message at hand. -/
def advance (l : EventLoop) (heap : Heap) (contextMap : ContextMap) (processor : Processor)
    (pending : List Processor) : EventLoop :=
  {l with
    heap := heap
    contextMap := contextMap
    processed := l.processed ++ [processor]
    pending := pending
    produced := if processor.getResult.code ≠ .ok then l.produced ++ processor.getResult.json
      else l.produced}

theorem execNext_validity {l : EventLoop} {m : Nat} {msg : MyMessage} {v : ValidityProcessor}
    {pending : List Processor} (hrun : l.running = some m)
    (hpending : l.pending = .validity v :: pending) (hmsg : l.heap.get? m = some msg) :
    l.execNext = (v.exec msg).map
      (fun v' => l.advance l.heap l.contextMap (.validity v') pending) := by
  unfold execNext
  simp only [hrun, hpending, Processor.exec, Heap.deref_of_get? hmsg, ok_bind]
  cases v.exec msg with
  | error e => rfl
  | ok v' =>
      rw [← hrun]
      rfl

theorem execNext_deficiency {l : EventLoop} {m : Nat} {d : DeficiencyProcessor}
    {pending : List Processor} (hrun : l.running = some m)
    (hpending : l.pending = .deficiency d :: pending) :
    l.execNext = (exec (l.execState d) m).map
      (fun t => l.advance t.heap t.contextMap (.deficiency t.self) pending) := by
  unfold execNext
  simp only [hrun, hpending, Processor.exec]
  change (exec (l.execState d) m >>= _) >>= _ = _
  cases exec (l.execState d) m with
  | error e => rfl
  | ok t =>
      rw [← hrun]
      rfl

theorem execNext_idle {l : EventLoop} (hidle : l.running = none ∨ l.pending = []) :
    l.execNext = .ok l := by
  unfold execNext
  split
  · rename_i hrun hpending
    rcases hidle with h | h
    · rw [hrun] at h
      cases h
    · rw [hpending] at h
      cases h
  · rfl

/-- The message at hand stays, and one processor has handled it. -/
theorem execNext_cursor {l l' : EventLoop} (hexec : l.execNext = .ok l') :
    l'.running = l.running ∧ (l.running ≠ none → l'.pending = l.pending.tail) := by
  unfold execNext at hexec
  split at hexec
  · rename_i m processor pending hrun hpending
    cases hout : processor.exec l.heap l.contextMap m with
    | error e =>
        rw [hout] at hexec
        cases hexec
    | ok out =>
        rw [hout] at hexec
        cases hexec
        rw [hrun, hpending]
        exact ⟨rfl, fun _ => rfl⟩
  · rename_i hidle
    cases hexec
    refine ⟨rfl, ?_⟩
    intro hrun
    obtain ⟨m, hm⟩ := Option.ne_none_iff_exists'.mp hrun
    cases hpending : l.pending with
    | nil => rfl
    | cons processor pending => exact absurd hpending (hidle m processor pending hm)

/-- The invariant when the first pending processor has handled the message,
given what it left of the store and of the waiting feeds. -/
theorem Inv.advance {l : EventLoop} {d d' : DeficiencyProcessor} (h : l.Inv d) {heap : Heap}
    {contextMap : ContextMap} {processor : Processor} {pending : List Processor}
    (hpending : l.pending ≠ []) (hkept : l.heap.Kept heap)
    (howned : ExecState.Owned ⟨heap, contextMap, d'⟩)
    (honly : (l.processed ++ processor :: pending).filterMap Processor.deficiency? = [d'])
    (hlive : pending.filterMap Processor.deficiency? ≠ [] → heap = l.heap ∧
      l.pending.filterMap Processor.deficiency? ≠ []) :
    (l.advance heap contextMap processor pending).Inv d' := by
  refine ⟨?_, howned, ?_, ?_⟩
  · rw [← honly]
    simp [EventLoop.processors, EventLoop.advance]
  · exact h.filed.of_kept hkept (fun _ => rfl)
  · intro m msg' hrun _ hmsg'
    obtain ⟨msg, hmsg, hcontent⟩ := hkept.symm.get hmsg'
    obtain ⟨hlast, hfresh⟩ := h.ready m msg hrun hpending hmsg
    refine ⟨?_, ?_⟩
    · rw [← (content_eq hcontent).1]
      exact hlast
    · intro hmore
      obtain ⟨rfl, hbefore⟩ := hlive hmore
      rw [show l.heap.get? m = some msg' from hmsg'] at hmsg
      cases hmsg
      exact hfresh hbefore

/-- The processors of a loop, split at the head of the pending ones. -/
theorem Inv.only_validity {l : EventLoop} {d : DeficiencyProcessor} (h : l.Inv d)
    {v v' : ValidityProcessor} {pending : List Processor}
    (hpending : l.pending = .validity v :: pending) :
    (l.processed ++ .validity v' :: pending).filterMap Processor.deficiency? = [d] := by
  have honly := h.only
  unfold EventLoop.processors at honly
  rw [hpending] at honly
  simpa [List.filterMap_append, List.filterMap_cons, Processor.deficiency?] using honly

theorem Inv.only_deficiency {l : EventLoop} {d d₀ : DeficiencyProcessor} (h : l.Inv d)
    {pending : List Processor} (hpending : l.pending = .deficiency d₀ :: pending) :
    d₀ = d ∧ pending.filterMap Processor.deficiency? = [] ∧
      l.processed.filterMap Processor.deficiency? = [] := by
  have honly := h.only
  unfold EventLoop.processors at honly
  rw [hpending, List.filterMap_append, List.filterMap_cons] at honly
  simp only [Processor.deficiency?] at honly
  rw [List.append_eq_singleton_iff] at honly
  rcases honly with ⟨hleft, hright⟩ | ⟨_, hright⟩
  · obtain ⟨rfl, hrest⟩ := List.cons.inj hright
    exact ⟨rfl, hrest, hleft⟩
  · cases hright

/-- The DeficiencyProcessor's turn, on a Statistics message. -/
theorem Inv.execNext_statistics {l : EventLoop} {d : DeficiencyProcessor} (h : l.Inv d) {m : Nat}
    {msg : MyMessage} {r : FeedRef} {pending : List Processor} (hrun : l.running = some m)
    (hpending : l.pending = .deficiency d :: pending) (hmsg : l.heap.get? m = some msg)
    (href : msg.ref? = some r) :
    ∃ t released, exec (l.execState d) m = .ok t ∧ Executed (l.execState d) m r released t ∧
      l.execNext = .ok (l.advance t.heap t.contextMap (.deficiency t.self) pending) := by
  obtain ⟨_, hlive⟩ := h.ready m msg hrun (by simp [hpending]) hmsg
  obtain ⟨t, released, ht, hdone⟩ := exec_executed h.owned hmsg href
    (hlive (by simp [hpending, Processor.deficiency?]))
  refine ⟨t, released, ht, hdone, ?_⟩
  rw [execNext_deficiency hrun hpending, ht]
  rfl

/-- What a step of a processor leaves alone: the messages up to live counts,
the partition queues, and the commits. -/
structure Steady (l l' : EventLoop) : Prop where
  heap : l.heap.Kept l'.heap
  offset : l'.offset = l.offset
  commits : l'.commits = l.commits

theorem Steady.refl (l : EventLoop) : l.Steady l := ⟨Heap.Kept.refl _, rfl, rfl⟩

theorem Steady.fifo {l l' : EventLoop} (h : l.Steady l') (p : Int) : l'.fifo p = l.fifo p := by
  unfold EventLoop.fifo
  rw [h.offset]

theorem Steady.absent {l l' : EventLoop} (h : l.Steady l') {a : Nat}
    (ha : l.heap.get? a = none) : l'.heap.get? a = none := by
  cases hmsg : l'.heap.get? a with
  | none => rfl
  | some msg' =>
      obtain ⟨msg, hmsg, _⟩ := h.heap.symm.get hmsg
      rw [ha] at hmsg
      cases hmsg

/-- A processor that succeeds has found the message at hand. -/
theorem execNext_present {l l' : EventLoop} {m : Nat} (hrun : l.running = some m)
    (hne : l.pending ≠ []) (hexec : l.execNext = .ok l') :
    ∃ msg, l.heap.get? m = some msg := by
  cases hmsg : l.heap.get? m with
  | some msg => exact ⟨msg, rfl⟩
  | none =>
      have hderef : l.heap.deref m = .error .danglingMessage := by simp [Heap.deref, hmsg]
      obtain ⟨processor, pending, hpending⟩ := List.exists_cons_of_ne_nil hne
      unfold execNext at hexec
      rw [hrun, hpending] at hexec
      cases processor with
      | deficiency d =>
          have hstop : DeficiencyProcessor.exec ⟨l.heap, l.contextMap, d⟩ m =
              .error .danglingMessage := by
            rw [DeficiencyProcessor.exec_eq]
            change l.heap.deref m >>= _ = _
            rw [hderef]
            rfl
          simp only [Processor.exec, hstop] at hexec
          cases hexec
      | validity v =>
          simp only [Processor.exec, hderef] at hexec
          cases hexec

theorem execNext_inv {l l' : EventLoop} {d : DeficiencyProcessor} (h : l.Inv d)
    (hexec : l.execNext = .ok l') : l.Steady l' ∧ ∃ d', l'.Inv d' := by
  cases hrun : l.running with
  | none =>
      rw [execNext_idle (Or.inl hrun)] at hexec
      cases hexec
      exact ⟨Steady.refl l, d, h⟩
  | some m =>
      cases hpending : l.pending with
      | nil =>
          rw [execNext_idle (Or.inr hpending)] at hexec
          cases hexec
          exact ⟨Steady.refl l, d, h⟩
      | cons processor pending =>
          have hne : l.pending ≠ [] := by simp [hpending]
          obtain ⟨msg, hmsg⟩ := execNext_present hrun hne hexec
          obtain ⟨_, hfresh⟩ := h.ready m msg hrun hne hmsg
          cases processor with
          | validity v =>
              rw [execNext_validity hrun hpending hmsg] at hexec
              cases hv : v.exec msg with
              | error e =>
                  rw [hv] at hexec
                  cases hexec
              | ok v' =>
                  rw [hv] at hexec
                  cases hexec
                  refine ⟨⟨Heap.Kept.refl _, rfl, rfl⟩, d, h.advance hne (Heap.Kept.refl _)
                    h.owned (h.only_validity hpending) ?_⟩
                  intro hmore
                  refine ⟨rfl, ?_⟩
                  rw [hpending]
                  simpa [Processor.deficiency?] using hmore
          | deficiency d₀ =>
              obtain ⟨rfl, hrest, hdone⟩ := h.only_deficiency hpending
              rw [execNext_deficiency hrun hpending] at hexec
              cases ht : exec (l.execState d₀) m with
              | error e =>
                  rw [ht] at hexec
                  cases hexec
              | ok t =>
                  rw [ht] at hexec
                  cases hexec
                  have hlive : msg.live = 0 := hfresh (by
                    rw [hpending]
                    simp [Processor.deficiency?])
                  obtain ⟨howned, hkept⟩ := exec_keeps h.owned hmsg hlive ht
                  refine ⟨⟨hkept, rfl, rfl⟩, t.self, h.advance hne hkept howned ?_ ?_⟩
                  · simp [List.filterMap_append, Processor.deficiency?, hrest, hdone]
                  · intro hmore
                    exact absurd hrest hmore

theorem StoredOn.inv {l l' : EventLoop} {parts : List Int} {d : DeficiencyProcessor}
    (h : StoredOn l parts l') (hinv : l.Inv d) : l'.Inv d := by
  obtain ⟨hcontext, hprocessed, hpending, hrunning, _⟩ := h.frame
  refine ⟨?_, ⟨?_, ?_, ?_⟩, h.filed hinv.filed, ?_⟩
  · unfold EventLoop.processors
    rw [hprocessed, hpending]
    exact hinv.only
  · exact hinv.owned.wf.of_sub h.brk (fun a msg hmsg => (h.sub hmsg).1)
  · -- the message of a waiting feed is live, so it is not freed
    intro code r hr
    have hr' : r ∈ (l.execState d).queueOf code := by
      simpa [ExecState.queueOf, execState, hcontext] using hr
    obtain ⟨hcode, m, hmapped, msg, hmsg, href, hlive⟩ := hinv.owned.queued code r hr'
    refine ⟨hcode, m, hmapped, msg, ?_, href, hlive⟩
    have hnot : ∀ p ∈ parts, m ∉ l.freed p := by
      intro p _ hm
      have hzero := mem_freed_free hm (show l.heap.get? m = some msg from hmsg)
      omega
    exact (h.kept m hnot).trans hmsg
  · intro code
    have hnodup := hinv.owned.nodup code
    simpa [ExecState.queueOf, execState, hcontext] using hnodup
  · intro m msg hm hne hmsg
    rw [hrunning] at hm
    rw [hpending] at hne ⊢
    obtain ⟨hbefore, hnot⟩ := h.sub hmsg
    obtain ⟨hlast, hfresh⟩ := hinv.ready m msg hm hne hbefore
    refine ⟨?_, hfresh⟩
    rw [h.fifo]
    split_ifs with hp
    · exact getLast?_held hlast (hnot _ hp)
    · exact hlast

/-- The whole of `store_offset` keeps the invariant. -/
theorem storeOffset_inv {l l' : EventLoop} {d : DeficiencyProcessor} (h : l.Inv d)
    (hstore : l.storeOffset = .ok l') : StoredOn l l.offset.keys l' ∧ l'.Inv d := by
  obtain ⟨hstored, _⟩ := storeOffset_stored h.filed hstore
  exact ⟨hstored, hstored.inv h⟩

/-- Every message in the store has a feed. -/
def Built (l : EventLoop) : Prop := ∀ m, l.heap.BuiltAt m

theorem Built.storeOffset_ok {l : EventLoop} (h : l.Built) (hfiled : l.Filed) :
    ∃ l', l.storeOffset = .ok l' :=
  EventLoop.storeOffset_ok hfiled fun _ _ m _ => h m

theorem StoredOn.built {l l' : EventLoop} {parts : List Int} (h : StoredOn l parts l')
    (hbuilt : l.Built) : l'.Built :=
  fun m msg hmsg => hbuilt m msg (h.sub hmsg).1

/-- One step of either thread that does not fault. -/
inductive Step (l : EventLoop) : EventLoop → Prop
  | consume (record : Record) (hidle : l.running = none) : Step l (l.consume record)
  | exec (l' : EventLoop) (hpending : l.pending ≠ []) (hexec : l.execNext = .ok l') : Step l l'
  | poll (hdone : l.pending = []) : Step l l.poll
  | store (l' : EventLoop) (hstore : l.storeOffset = .ok l') : Step l l'

def Reachable (processors : List Processor) (l : EventLoop) : Prop :=
  Relation.ReflTransGen Step (start processors) l

theorem Step.inv {l l' : EventLoop} {d : DeficiencyProcessor} (hstep : Step l l')
    (h : l.Inv d) : ∃ d', l'.Inv d' := by
  cases hstep with
  | consume record _ => exact ⟨d, consume_inv h record⟩
  | exec _ _ hexec => exact (execNext_inv h hexec).2
  | poll _ => exact ⟨d, poll_inv h⟩
  | store _ hstore => exact ⟨d, (storeOffset_inv h hstore).2⟩

theorem Reachable.inv {processors : List Processor}
    (hone : processors.filterMap Processor.deficiency? = [DeficiencyProcessor.fresh])
    {l : EventLoop} (hreach : Reachable processors l) : ∃ d, l.Inv d := by
  induction hreach with
  | refl => exact ⟨_, start_inv hone⟩
  | tail _ hstep ih =>
      obtain ⟨d, hinv⟩ := ih
      exact hstep.inv hinv

/-- The same, where it is the DeficiencyProcessor's turn. -/
theorem Reachable.inv_of_turn {processors : List Processor}
    (hone : processors.filterMap Processor.deficiency? = [DeficiencyProcessor.fresh])
    {l : EventLoop} (hreach : Reachable processors l) {d : DeficiencyProcessor}
    {pending : List Processor} (hpending : l.pending = .deficiency d :: pending) : l.Inv d := by
  obtain ⟨d₀, hinv⟩ := hreach.inv hone
  obtain ⟨rfl, _⟩ := hinv.only_deficiency hpending
  exact hinv

end EventLoop

end OLog
