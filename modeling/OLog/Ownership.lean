import OLog.Iteration

/-!
Waiting feeds stay owned, whatever messages come and whenever `store_offset`
is called between iterations: queue, `sf_to_m`, live count and partition queue
agree on each of them.
-/

namespace OLog

open Lib DeficiencyProcessor

namespace EventLoop

section Ownership

variable {l : EventLoop} {d : DeficiencyProcessor}

/-- A waiting feed and its message, with everything that holds it. -/
structure HeldBy (l : EventLoop) (d : DeficiencyProcessor) (r : FeedRef) (m : Nat)
    (msg : MyMessage) : Prop where
  mapped : d.sfToM.get? r.addr = some m
  stored : l.heap.get? m = some msg
  carries : msg.ref? = some r
  live : msg.live = 1
  /-- It sits in the queue of its partition and in no other, -/
  filed : ∀ p, m ∈ l.fifo p ↔ p = msg.message.partition
  /-- and there once. -/
  once : (l.fifo msg.message.partition).count m = 1

theorem Inv.heldBy (h : l.Inv d) {code : String} {r : FeedRef} (hr : r ∈ l.queueOf code) :
    ∃ m msg, HeldBy l d r m msg := by
  obtain ⟨_, m, hmapped, msg, hmsg, href, hlive⟩ := h.owned.queued code r hr
  have hmem := h.filed.queued m msg hmsg
  refine ⟨m, msg, hmapped, hmsg, href, hlive, ?_, ?_⟩
  · intro p
    constructor
    · intro hp
      obtain ⟨msg', hmsg', hpart⟩ := h.filed.stored p m hp
      rw [show l.heap.get? m = some msg from hmsg] at hmsg'
      cases hmsg'
      exact hpart.symm
    · rintro rfl
      exact hmem
  · exact List.count_eq_one_of_mem (h.filed.nodup _) hmem

/-- The same feed does not wait twice, not even for two feedcodes. -/
theorem Inv.queued_once (h : l.Inv d) {code other : String} {r r' : FeedRef}
    (hr : r ∈ l.queueOf code) (hr' : r' ∈ l.queueOf other) (haddr : r'.addr = r.addr) :
    other = code ∧ r' = r := by
  obtain ⟨hcode, m, howns⟩ := h.owned.queued code r hr
  obtain ⟨hother, m', howns'⟩ := h.owned.queued other r' hr'
  have heq := howns'.unique howns haddr
  exact ⟨by rw [← hother, heq, hcode], heq⟩

/-- In every run of whole iterations over messages that parse and calls of
`store_offset`, nothing faults, and every waiting feed is owned: it waits once,
`sf_to_m` leads to its own message, whose live count is one and which sits in
exactly one partition queue. What `store_offset` then pops it deletes, and it
pops no message of a waiting feed. -/
theorem waiting_feeds_stay_owned (processors : List Processor)
    (hone : processors.filterMap Processor.deficiency? = [DeficiencyProcessor.fresh])
    (events : List Event) :
    ∃ l d, run processors events = .ok l ∧
      l.processors.filterMap Processor.deficiency? = [d] ∧
      (∀ code, ((l.queueOf code).map FeedRef.addr).Nodup) ∧
      (∀ code, ∀ r ∈ l.queueOf code, (∃ m msg, HeldBy l d r m msg) ∧
        ∀ other, ∀ r' ∈ l.queueOf other, r'.addr = r.addr → other = code ∧ r' = r) ∧
      ∃ l', l.storeOffset = .ok l' ∧
        ∀ p, ∀ m ∈ l.fifo p, m ∉ l'.fifo p → l'.heap.get? m = none ∧
          ∀ code, ∀ r ∈ l.queueOf code, d.sfToM.get? r.addr ≠ some m := by
  obtain ⟨l, d, hrun, hidle⟩ := run_idle hone events
  have hinv := hidle.toInv
  obtain ⟨l', hstore⟩ := hidle.built.storeOffset_ok hinv.filed
  obtain ⟨hstored, hinv'⟩ := storeOffset_inv hinv hstore
  refine ⟨l, d, hrun, hinv.only, hinv.owned.nodup, ?_, l', hstore, ?_⟩
  · intro code r hr
    exact ⟨hinv.heldBy hr, fun other r' hr' haddr => hinv.queued_once hr hr' haddr⟩
  · intro p m hm hpopped
    have hgone : l'.heap.get? m = none := by
      cases hmsg : l'.heap.get? m with
      | none => rfl
      | some msg =>
          obtain ⟨hbefore, _⟩ := hstored.sub hmsg
          obtain ⟨msg', hmsg', hpart⟩ := hinv.filed.stored p m hm
          rw [hbefore] at hmsg'
          cases hmsg'
          exact absurd (hpart ▸ hinv'.filed.queued m msg hmsg) hpopped
    refine ⟨hgone, ?_⟩
    intro code r hr hmapped
    have hr' : r ∈ l'.queueOf code := by
      unfold queueOf
      rw [hstored.frame.1]
      exact hr
    obtain ⟨m', msg, hheld⟩ := hinv'.heldBy hr'
    rw [hheld.mapped] at hmapped
    cases hmapped
    rw [hheld.stored] at hgone
    cases hgone

/-- The processors that `main` adds. -/
def mainProcessors : List Processor :=
  [.deficiency DeficiencyProcessor.fresh, .validity ValidityProcessor.fresh]

/-- A message with a sample feed. -/
def sampleIncoming (offset : Int) (i v : Nat) : Incoming :=
  ⟨⟨"feed", 0, offset⟩, .statistics (sampleFeed i v)⟩

/-- Iterations over sample messages at the given ticks, with a turnover that
increases from tick to tick. -/
def sampleEvents (ticks : List Nat) : List Event :=
  ticks.zipIdx.map (fun (i, offset) => .iterate (sampleIncoming offset i (i + 1)))

/-- With the processors of `main`, and a feed that waits across a call. -/
theorem waiting_feeds_stay_owned_main :
    ∃ l d, run mainProcessors (sampleEvents [0, 2] ++ [.storeOffset]) = .ok l ∧
      l.processors.filterMap Processor.deficiency? = [d] ∧
      ∀ code, ∀ r ∈ l.queueOf code, ∃ m msg, HeldBy l d r m msg := by
  obtain ⟨l, d, hrun, honly, _, hheld, _⟩ := waiting_feeds_stay_owned mainProcessors rfl
    (sampleEvents [0, 2] ++ [.storeOffset])
  exact ⟨l, d, hrun, honly, fun code r hr => (hheld code r hr).1⟩

end Ownership

end EventLoop

end OLog
