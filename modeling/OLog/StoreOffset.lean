import Mathlib.Data.List.TakeWhile
import OLog.EventLoop

/-!
What `store_offset` does to one partition, when every message in the
partition's queue exists and is queued once: it deletes the longest front part
of the queue that is free, keeps the rest, and commits the last deleted one. The
call goes through exactly if each of the deleted messages has a feed to delete.
-/

namespace OLog

open Lib

/-- Whatever message is at this address can be deleted. -/
def Heap.BuiltAt (h : Heap) (m : Nat) : Prop := ∀ message ∈ h.get? m, message.Built

instance (h : Heap) (m : Nat) : Decidable (h.BuiltAt m) :=
  inferInstanceAs (Decidable (∀ message ∈ h.get? m, message.Built))

theorem Heap.get?_erase (h : Heap) (m a : Nat) :
    Heap.get? {h with objects := h.objects.erase m} a = if a = m then none else h.get? a :=
  OrdMap.get?_erase _ _ _

namespace EventLoop

/-- The inner loop, with `cur` popped before: `free` says which messages are. It ends
unless one of the messages that it deletes has no feed. -/
theorem popFree_eq (free : Nat → Bool) (queue : List Nat) (cur : Option Nat) (heap : Heap)
    (hqueue : ∀ m ∈ queue, ∃ message, heap.get? m = some message ∧ message.free = free m)
    (hcur : ∀ m ∈ cur, ∃ message, heap.get? m = some message)
    (hnodup : (cur.toList ++ queue).Nodup) :
    ((∃ e, popFree queue cur heap = .error e) ∧
      ∃ m ∈ (cur.toList ++ queue.takeWhile free).dropLast, ¬ heap.BuiltAt m) ∨
    (∀ m ∈ (cur.toList ++ queue.takeWhile free).dropLast, heap.BuiltAt m) ∧
      ∃ heap', popFree queue cur heap =
          .ok ((cur.toList ++ queue.takeWhile free).getLast?, queue.dropWhile free, heap') ∧
        heap'.brk = heap.brk ∧
        ∀ a, heap'.get? a =
          if a ∈ (cur.toList ++ queue.takeWhile free).dropLast then none else heap.get? a := by
  induction queue generalizing cur heap with
  | nil =>
      right
      refine ⟨?_, heap, ?_, rfl, ?_⟩
      · cases cur <;> simp
      · cases cur <;> rfl
      · cases cur <;> simp
  | cons next rest ih =>
      obtain ⟨message, hmessage, hfree⟩ := hqueue next List.mem_cons_self
      unfold popFree
      simp only [Heap.deref_of_get? hmessage, ok_bind]
      cases hnext : free next with
      | false =>
          rw [hnext] at hfree
          right
          refine ⟨?_, heap, ?_, rfl, ?_⟩
          · cases cur <;> simp [hnext]
          · rw [if_neg (by simp [hfree])]
            cases cur <;> simp [hnext] <;> rfl
          · cases cur <;> simp [hnext]
      | true =>
          rw [hnext] at hfree
          rw [if_pos hfree]
          have hdropped : (next :: rest).dropWhile free = rest.dropWhile free := by
            simp [hnext]
          rw [hdropped]
          cases cur with
          | none =>
              have hpopped : (none : Option Nat).toList ++ (next :: rest).takeWhile free =
                  (some next).toList ++ rest.takeWhile free := by
                simp [hnext]
              rw [hpopped]
              exact ih (some next) heap (fun m hm => hqueue m (List.mem_cons_of_mem _ hm))
                (fun m hm => by cases hm; exact ⟨message, hmessage⟩) (by simpa using hnodup)
          | some c =>
              obtain ⟨kept, hkept⟩ := hcur c rfl
              have hsplit : c ∉ next :: rest ∧ (next :: rest).Nodup := by
                simpa using hnodup
              have hpopped : (some c).toList ++ (next :: rest).takeWhile free =
                  c :: ((some next).toList ++ rest.takeWhile free) := by
                simp [hnext]
              have hne : (some next).toList ++ rest.takeWhile free ≠ [] := by simp
              rw [hpopped, List.dropLast_cons_of_ne_nil hne, List.getLast?_cons_of_ne_nil hne]
              by_cases hbuilt : kept.Built
              · -- `c` is deleted; the messages that are still to come are others
                let erased : Heap := {heap with objects := heap.objects.erase c}
                have hsame : ∀ m ∈ next :: rest, erased.get? m = heap.get? m := by
                  intro m hm
                  have hother : m ≠ c := fun heq => hsplit.1 (heq ▸ hm)
                  rw [Heap.get?_erase, if_neg hother]
                have hbuiltAt : ∀ m ∈ ((some next).toList ++ rest.takeWhile free).dropLast,
                    erased.BuiltAt m ↔ heap.BuiltAt m := by
                  intro m hm
                  have hmem : m ∈ next :: rest := by
                    rcases List.mem_cons.mp (List.dropLast_subset _ hm) with rfl | hm
                    · exact List.mem_cons_self
                    · exact List.mem_cons_of_mem _ (List.takeWhile_subset _ hm)
                  unfold Heap.BuiltAt
                  rw [hsame m hmem]
                simp only [Heap.delete_of_get? hkept hbuilt, ok_bind]
                rcases ih (some next) erased
                    (fun m hm => by
                      rw [hsame m (List.mem_cons_of_mem _ hm)]
                      exact hqueue m (List.mem_cons_of_mem _ hm))
                    (fun m hm => by
                      cases hm
                      exact ⟨message, (hsame next List.mem_cons_self).trans hmessage⟩)
                    (by simpa using hsplit.2) with
                  ⟨herror, m, hm, hnot⟩ | ⟨hall, heap', hpop, hbrk, hget⟩
                · left
                  exact ⟨herror, m, List.mem_cons_of_mem _ hm, mt (hbuiltAt m hm).mpr hnot⟩
                · right
                  refine ⟨?_, heap', hpop, hbrk, ?_⟩
                  · intro m hm
                    rcases List.mem_cons.mp hm with rfl | hm
                    · intro msg hmsg
                      rw [hkept] at hmsg
                      cases hmsg
                      exact hbuilt
                    · exact (hbuiltAt m hm).mp (hall m hm)
                  · intro a
                    rw [hget, Heap.get?_erase]
                    by_cases ha : a = c
                    · simp [ha]
                    · simp [ha]
              · left
                refine ⟨?_, c, List.mem_cons_self, fun hall => hbuilt (hall kept hkept)⟩
                cases hdelete : heap.delete c with
                | error e => exact ⟨e, by simp only [hdelete]; rfl⟩
                | ok _ => exact absurd (Heap.built_of_delete hkept hdelete) hbuilt

def freeAt (heap : Heap) (m : Nat) : Bool := (heap.get? m).any MyMessage.free

/-- The free front part of a partition's queue. -/
def freed (l : EventLoop) (partition : Int) : List Nat :=
  (l.fifo partition).takeWhile (freeAt l.heap)

/-- What stays queued. -/
def held (l : EventLoop) (partition : Int) : List Nat :=
  (l.fifo partition).dropWhile (freeAt l.heap)

theorem freed_append_held (l : EventLoop) (partition : Int) :
    l.freed partition ++ l.held partition = l.fifo partition :=
  List.takeWhile_append_dropWhile

theorem mem_freed_free {l : EventLoop} {partition : Int} {m : Nat}
    (hm : m ∈ l.freed partition) {message : MyMessage} (hmessage : l.heap.get? m = some message) :
    message.live = 0 := by
  have hfree := List.mem_takeWhile_imp hm
  simpa [freeAt, hmessage, MyMessage.free] using hfree

/-- Queues and store agree: each queued message exists and is of the queue's
partition, it is queued once, and every message is queued. -/
structure Filed (l : EventLoop) : Prop where
  stored : ∀ partition, ∀ m ∈ l.fifo partition,
    ∃ message, l.heap.get? m = some message ∧ message.message.partition = partition
  nodup : ∀ partition, (l.fifo partition).Nodup
  queued : ∀ m message, l.heap.get? m = some message → m ∈ l.fifo message.message.partition

/-- The messages that the call deletes have feeds. -/
def Deletable (l : EventLoop) (partition : Int) : Prop :=
  ∀ m ∈ l.freed partition, l.heap.BuiltAt m

instance (l : EventLoop) (partition : Int) : Decidable (l.Deletable partition) :=
  inferInstanceAs (Decidable (∀ m ∈ l.freed partition, l.heap.BuiltAt m))

/-- What a partition commits: the last message of the part that is freed. -/
def committed (l : EventLoop) (partition : Int) : List KafkaMessage :=
  (((l.freed partition).getLast?.bind l.heap.get?).map MyMessage.message).toList

/-- The outcome of `storePartition`. -/
structure Stored (l : EventLoop) (partition : Int) (l' : EventLoop) : Prop where
  frame : l'.contextMap = l.contextMap ∧ l'.processed = l.processed ∧
    l'.pending = l.pending ∧ l'.running = l.running ∧ l'.produced = l.produced
  brk : l'.heap.brk = l.heap.brk
  heap : ∀ a, l'.heap.get? a = if a ∈ l.freed partition then none else l.heap.get? a
  fifo : ∀ p, l'.fifo p = if p = partition then l.held partition else l.fifo p
  commits : l'.commits = l.commits ++ l.committed partition

theorem fifo_insert (l : EventLoop) (partition : Int) (queue : List Nat) (p : Int) :
    fifo {l with offset := l.offset.insert partition queue} p =
      if p = partition then queue else l.fifo p := by
  unfold fifo
  rw [OrdMap.get?_insert]
  split_ifs <;> rfl

theorem storePartition_eq {l : EventLoop} (h : l.Filed) (partition : Int) :
    ((∃ e, l.storePartition partition = .error e) ∧ ¬ l.Deletable partition) ∨
    l.Deletable partition ∧
      ∃ l', l.storePartition partition = .ok l' ∧ Stored l partition l' := by
  have hpop := popFree_eq (freeAt l.heap) (l.fifo partition) none l.heap
    (fun m hm => by
      obtain ⟨message, hmessage, _⟩ := h.stored partition m hm
      exact ⟨message, hmessage, by simp [freeAt, hmessage]⟩)
    (fun m hm => by cases hm)
    (by simpa using h.nodup partition)
  change ((∃ e, popFree (l.fifo partition) none l.heap = .error e) ∧
      ∃ m ∈ (l.freed partition).dropLast, ¬ l.heap.BuiltAt m) ∨
    (∀ m ∈ (l.freed partition).dropLast, l.heap.BuiltAt m) ∧
      ∃ heap', popFree (l.fifo partition) none l.heap =
        .ok ((l.freed partition).getLast?, l.held partition, heap') ∧ _ ∧
        ∀ a, heap'.get? a = if a ∈ (l.freed partition).dropLast then none else _ at hpop
  unfold storePartition
  rcases hpop with ⟨⟨e, herror⟩, m, hm, hnot⟩ | ⟨hbuilt, heap, hpop, hbrk, hget⟩
  · left
    rw [herror]
    exact ⟨⟨e, rfl⟩, fun hall => hnot (hall m (List.dropLast_subset _ hm))⟩
  let next : EventLoop :=
    {l with heap := heap, offset := l.offset.insert partition (l.held partition)}
  have hfifo : ∀ p, next.fifo p = if p = partition then l.held partition else l.fifo p :=
    fun p => l.fifo_insert partition (l.held partition) p
  rw [hpop]
  simp only [ok_bind]
  rcases List.eq_nil_or_concat (l.freed partition) with hnil | ⟨front, last, hlast⟩
  · right
    rw [hnil] at hget ⊢
    refine ⟨?_, next, rfl, ⟨rfl, rfl, rfl, rfl, rfl⟩, hbrk, ?_, hfifo, ?_⟩
    · simp [Deletable, hnil]
    · intro a
      rw [hnil]
      simpa using hget a
    · simp [committed, hnil, next]
  · rw [List.concat_eq_append] at hlast
    have hmem : last ∈ l.fifo partition := by
      rw [← l.freed_append_held partition, hlast]
      simp
    have hfront : last ∉ front := by
      have hnodup := h.nodup partition
      rw [← l.freed_append_held partition, hlast, List.append_assoc] at hnodup
      have := List.disjoint_of_nodup_append hnodup
      exact fun hin => this hin (by simp)
    obtain ⟨message, hmessage, _⟩ := h.stored partition last hmem
    rw [hlast, List.dropLast_concat] at hget hbuilt
    have hmessage' : next.heap.get? last = some message := by
      change heap.get? last = some message
      rw [hget, if_neg hfront, hmessage]
    rw [hlast, List.getLast?_concat]
    simp only [Heap.deref_of_get? hmessage', next, ok_bind]
    by_cases hfeed : message.Built
    · right
      simp only [Heap.delete_of_get? hmessage' hfeed, next, ok_bind]
      refine ⟨?_, _, rfl, ⟨rfl, rfl, rfl, rfl, rfl⟩, hbrk, ?_, hfifo, ?_⟩
      · intro m hm
        rw [hlast] at hm
        rcases List.mem_append.mp hm with hm | hm
        · exact hbuilt m hm
        · intro msg hmsg
          rw [List.mem_singleton.mp hm, hmessage] at hmsg
          cases hmsg
          exact hfeed
      · intro a
        rw [hlast]
        change Heap.get? {heap with objects := heap.objects.erase last} a = _
        rw [Heap.get?_erase, hget]
        by_cases ha : a = last
        · simp [ha]
        · simp [ha]
      · simp [committed, hlast, hmessage]
    · left
      refine ⟨?_, fun hall => hfeed (hall last (by simp [hlast]) message hmessage)⟩
      cases hdelete : next.heap.delete last with
      | error e => exact ⟨e, rfl⟩
      | ok _ => exact absurd (Heap.built_of_delete hmessage' hdelete) hfeed

theorem freed_subset (l : EventLoop) (p : Int) {m : Nat} (hm : m ∈ l.freed p) :
    m ∈ l.fifo p := by
  rw [← l.freed_append_held p]
  exact List.mem_append_left _ hm

theorem held_subset (l : EventLoop) (p : Int) {m : Nat} (hm : m ∈ l.held p) :
    m ∈ l.fifo p := by
  rw [← l.freed_append_held p]
  exact List.mem_append_right _ hm

/-- A message outside the freed part of a partition is still there. -/
theorem Filed.notMem_freed_of_held {l : EventLoop} (h : l.Filed) {p : Int} {m : Nat}
    (hm : m ∈ l.held p) : m ∉ l.freed p := by
  have hnodup := h.nodup p
  rw [← l.freed_append_held p] at hnodup
  exact fun hfreed => List.disjoint_of_nodup_append hnodup hfreed hm

theorem Filed.notMem_freed_of_other {l : EventLoop} (h : l.Filed) {p p' : Int} (hp : p' ≠ p)
    {m : Nat} (hm : m ∈ l.fifo p') : m ∉ l.freed p := by
  intro hfreed
  obtain ⟨msg, hmsg, hpart⟩ := h.stored p' m hm
  obtain ⟨msg', hmsg', hpart'⟩ := h.stored p m (l.freed_subset p hfreed)
  rw [hmsg] at hmsg'
  cases hmsg'
  exact hp (hpart.symm.trans hpart')

/-- A message that is last in its queue and not freed is the last that stays. -/
theorem getLast?_held {l : EventLoop} {p : Int} {m : Nat}
    (hlast : (l.fifo p).getLast? = some m) (hnot : m ∉ l.freed p) :
    (l.held p).getLast? = some m := by
  rw [← l.freed_append_held p] at hlast
  cases hheld : l.held p with
  | nil =>
      rw [hheld, List.append_nil] at hlast
      exact absurd (List.mem_of_getLast? hlast) hnot
  | cons first rest =>
      rw [hheld, List.getLast?_append_cons] at hlast
      exact hlast

theorem takeWhile_congr {p q : Nat → Bool} {queue : List Nat} (h : ∀ m ∈ queue, p m = q m) :
    queue.takeWhile p = queue.takeWhile q := by
  induction queue with
  | nil => rfl
  | cons m rest ih =>
      rw [List.takeWhile_cons, List.takeWhile_cons, h m List.mem_cons_self,
        ih (fun x hx => h x (List.mem_cons_of_mem _ hx))]

theorem dropWhile_congr {p q : Nat → Bool} {queue : List Nat} (h : ∀ m ∈ queue, p m = q m) :
    queue.dropWhile p = queue.dropWhile q := by
  induction queue with
  | nil => rfl
  | cons m rest ih =>
      rw [List.dropWhile_cons, List.dropWhile_cons, h m List.mem_cons_self,
        ih (fun x hx => h x (List.mem_cons_of_mem _ hx))]

/-- The outcome once the partitions `parts` have been stored. -/
structure StoredOn (l : EventLoop) (parts : List Int) (l' : EventLoop) : Prop where
  frame : l'.contextMap = l.contextMap ∧ l'.processed = l.processed ∧
    l'.pending = l.pending ∧ l'.running = l.running ∧ l'.produced = l.produced
  brk : l'.heap.brk = l.heap.brk
  gone : ∀ p ∈ parts, ∀ a ∈ l.freed p, l'.heap.get? a = none
  kept : ∀ a, (∀ p ∈ parts, a ∉ l.freed p) → l'.heap.get? a = l.heap.get? a
  fifo : ∀ p, l'.fifo p = if p ∈ parts then l.held p else l.fifo p
  commits : l'.commits = l.commits ++ parts.flatMap l.committed

theorem StoredOn.refl (l : EventLoop) : StoredOn l [] l :=
  ⟨⟨rfl, rfl, rfl, rfl, rfl⟩, rfl, by simp, fun _ _ => rfl, by simp, by simp⟩

theorem StoredOn.sub {l l' : EventLoop} {parts : List Int} (h : StoredOn l parts l') {a : Nat}
    {msg : MyMessage} (hmsg : l'.heap.get? a = some msg) :
    l.heap.get? a = some msg ∧ ∀ p ∈ parts, a ∉ l.freed p := by
  have hnot : ∀ p ∈ parts, a ∉ l.freed p := by
    intro p hp ha
    rw [h.gone p hp a ha] at hmsg
    cases hmsg
  exact ⟨(h.kept a hnot).symm.trans hmsg, hnot⟩

theorem StoredOn.absent {l l' : EventLoop} {parts : List Int} (h : StoredOn l parts l') {a : Nat}
    (ha : l.heap.get? a = none) : l'.heap.get? a = none := by
  cases hmsg : l'.heap.get? a with
  | none => rfl
  | some msg =>
      rw [(h.sub hmsg).1] at ha
      cases ha

/-- A message that is still queued has not been freed. -/
theorem StoredOn.notMem_freed {l l' : EventLoop} {parts : List Int} (h : StoredOn l parts l')
    (hfiled : l.Filed) {p : Int} {m : Nat} (hm : m ∈ l'.fifo p) :
    m ∈ l.fifo p ∧ ∀ p' ∈ parts, m ∉ l.freed p' := by
  rw [h.fifo] at hm
  split_ifs at hm with hp
  · have hmem := l.held_subset p hm
    refine ⟨hmem, fun p' _ => ?_⟩
    by_cases heq : p = p'
    · rw [← heq]
      exact hfiled.notMem_freed_of_held hm
    · exact hfiled.notMem_freed_of_other heq hmem
  · refine ⟨hm, fun p' hp' => hfiled.notMem_freed_of_other ?_ hm⟩
    rintro rfl
    exact hp hp'

theorem StoredOn.filed {l l' : EventLoop} {parts : List Int} (h : StoredOn l parts l')
    (hfiled : l.Filed) : l'.Filed := by
  refine ⟨?_, ?_, ?_⟩
  · intro p m hm
    obtain ⟨hmem, hnot⟩ := h.notMem_freed hfiled hm
    obtain ⟨msg, hmsg, hpart⟩ := hfiled.stored p m hmem
    exact ⟨msg, (h.kept m hnot).trans hmsg, hpart⟩
  · intro p
    rw [h.fifo]
    split_ifs
    · exact (hfiled.nodup p).sublist (List.dropWhile_sublist _)
    · exact hfiled.nodup p
  · intro m msg hmsg
    obtain ⟨hbefore, hnot⟩ := h.sub hmsg
    have hmem := hfiled.queued m msg hbefore
    rw [h.fifo]
    split_ifs with hp
    · rw [← l.freed_append_held] at hmem
      exact (List.mem_append.mp hmem).resolve_left (hnot _ hp)
    · exact hmem

/-- A partition that has not been stored yet is as it was. -/
theorem StoredOn.untouched {l l' : EventLoop} {parts : List Int} (h : StoredOn l parts l')
    (hfiled : l.Filed) {p : Int} (hp : p ∉ parts) :
    l'.freed p = l.freed p ∧ l'.held p = l.held p ∧ l'.committed p = l.committed p ∧
      (l'.Deletable p ↔ l.Deletable p) := by
  have hfifo : l'.fifo p = l.fifo p := by rw [h.fifo, if_neg hp]
  have hget : ∀ m ∈ l.fifo p, l'.heap.get? m = l.heap.get? m := by
    intro m hm
    apply h.kept
    intro p' hp'
    apply hfiled.notMem_freed_of_other _ hm
    rintro rfl
    exact hp hp'
  have hfree : ∀ m ∈ l.fifo p, freeAt l'.heap m = freeAt l.heap m := by
    intro m hm
    unfold freeAt
    rw [hget m hm]
  have hfreed : l'.freed p = l.freed p := by
    unfold EventLoop.freed
    rw [hfifo]
    exact takeWhile_congr hfree
  refine ⟨hfreed, ?_, ?_, ?_⟩
  · unfold EventLoop.held
    rw [hfifo]
    exact dropWhile_congr hfree
  · unfold committed
    rw [hfreed]
    cases hlast : (l.freed p).getLast? with
    | none => rfl
    | some m =>
        have hm : m ∈ l.fifo p := l.freed_subset p (List.mem_of_getLast? hlast)
        simp [hget m hm]
  · have hbuilt : ∀ m ∈ l.freed p, l'.heap.BuiltAt m ↔ l.heap.BuiltAt m := by
      intro m hm
      unfold Heap.BuiltAt
      rw [hget m (l.freed_subset p hm)]
    unfold Deletable
    rw [hfreed]
    exact forall₂_congr hbuilt

theorem StoredOn.concat {l l' l'' : EventLoop} {parts : List Int} {p : Int}
    (h : StoredOn l parts l') (hfiled : l.Filed) (hp : p ∉ parts) (hstep : Stored l' p l'') :
    StoredOn l (parts ++ [p]) l'' := by
  obtain ⟨hfreed, hheld, hcommitted, -⟩ := h.untouched hfiled hp
  obtain ⟨hf1, hf2, hf3, hf4, hf5⟩ := h.frame
  obtain ⟨hg1, hg2, hg3, hg4, hg5⟩ := hstep.frame
  refine ⟨⟨hg1.trans hf1, hg2.trans hf2, hg3.trans hf3, hg4.trans hf4, hg5.trans hf5⟩,
    hstep.brk.trans h.brk, ?_, ?_, ?_, ?_⟩
  · intro p' hp' a ha
    rw [hstep.heap, hfreed]
    split_ifs with hin
    · rfl
    · rcases List.mem_append.mp hp' with hp' | hp'
      · exact h.gone p' hp' a ha
      · rw [List.mem_singleton.mp hp'] at ha
        exact absurd ha hin
  · intro a ha
    rw [hstep.heap, hfreed, if_neg (ha p (by simp))]
    exact h.kept a (fun p' hp' => ha p' (List.mem_append_left _ hp'))
  · intro p'
    rw [hstep.fifo, hheld, h.fifo]
    by_cases heq : p' = p
    · simp [heq]
    · simp [heq]
  · rw [hstep.commits, h.commits, hcommitted]
    simp

theorem notMem_of_prefix_keys {l : EventLoop} {parts : List Int} {p : Int}
    (hpre : parts ++ [p] <+: l.offset.keys) : p ∉ parts := by
  have hnodup := l.offset.keys_nodup.sublist hpre.sublist
  have hdisjoint := List.disjoint_of_nodup_append hnodup
  exact fun hmem => hdisjoint hmem (by simp)

/-- When queues and store agree, `store_offset` does nothing else than this, and what it
deletes has a feed. -/
theorem storeOffset_stored {l l' : EventLoop} (hfiled : l.Filed)
    (hstore : l.storeOffset = .ok l') :
    StoredOn l l.offset.keys l' ∧ ∀ p ∈ l.offset.keys, l.Deletable p := by
  refine foldlM_ok_history
    (I := fun parts t => StoredOn l parts t ∧ ∀ p ∈ parts, l.Deletable p) hstore
    ⟨StoredOn.refl l, by simp⟩ ?_
  rintro parts p t u hpre ⟨ht, hparts⟩ hu
  have hp := notMem_of_prefix_keys hpre
  rcases storePartition_eq (ht.filed hfiled) p with ⟨⟨e, herror⟩, _⟩ | ⟨hdel, u', hu', hstored⟩
  · rw [herror] at hu
    cases hu
  · rw [hu'] at hu
    cases hu
    refine ⟨ht.concat hfiled hp hstored, ?_⟩
    intro p' hp'
    rcases List.mem_append.mp hp' with hp' | hp'
    · exact hparts p' hp'
    · rw [List.mem_singleton.mp hp']
      exact (ht.untouched hfiled hp).2.2.2.mp hdel

/-- It fails only where one of them has none. -/
theorem storeOffset_ok {l : EventLoop} (hfiled : l.Filed)
    (hdel : ∀ p ∈ l.offset.keys, l.Deletable p) : ∃ l', l.storeOffset = .ok l' := by
  have hstore : ∃ l', l.storeOffset = .ok l' ∧ StoredOn l l.offset.keys l' := by
    apply foldlM_history storePartition (I := fun parts t => StoredOn l parts t) l.offset.keys
      (StoredOn.refl l)
    intro parts p t hpre ht
    have hp := notMem_of_prefix_keys hpre
    have hpdel : l.Deletable p := hdel p (hpre.subset (by simp))
    rcases storePartition_eq (ht.filed hfiled) p with ⟨_, hnot⟩ | ⟨_, u, hu, hstored⟩
    · exact absurd ((ht.untouched hfiled hp).2.2.2.mpr hpdel) hnot
    · exact ⟨u, hu, ht.concat hfiled hp hstored⟩
  obtain ⟨l', hl', _⟩ := hstore
  exact ⟨l', hl'⟩

section Whole

variable {l l' : EventLoop}

theorem mem_keys_of_mem_fifo {p : Int} {m : Nat} (hm : m ∈ l.fifo p) : p ∈ l.offset.keys := by
  rw [OrdMap.mem_keys_iff]
  cases hget : l.offset.get? p with
  | none => simp [fifo, hget] at hm
  | some queue => exact ⟨queue, rfl⟩

theorem StoredOn.fifo_held (h : StoredOn l l.offset.keys l') (p : Int) :
    l'.fifo p = l.held p := by
  rw [h.fifo]
  split_ifs with hp
  · rfl
  · have hnil : l.fifo p = [] := by
      apply List.eq_nil_iff_forall_not_mem.mpr
      exact fun m hm => hp (mem_keys_of_mem_fifo hm)
    simp [held, hnil]

theorem StoredOn.freed_gone (h : StoredOn l l.offset.keys l') {p : Int} {m : Nat}
    (hm : m ∈ l.freed p) : l'.heap.get? m = none :=
  h.gone p (mem_keys_of_mem_fifo (l.freed_subset p hm)) m hm

theorem StoredOn.commits_last (h : StoredOn l l.offset.keys l') {p : Int} {m : Nat}
    (hm : (l.freed p).getLast? = some m) {msg : MyMessage} (hmsg : l.heap.get? m = some msg) :
    msg.message ∈ l'.commits := by
  have hmem : m ∈ l.fifo p := l.freed_subset p (List.mem_of_getLast? hm)
  rw [h.commits]
  apply List.mem_append_right
  apply List.mem_flatMap.mpr
  exact ⟨p, mem_keys_of_mem_fifo hmem, by simp [committed, hm, hmsg]⟩

end Whole

end EventLoop

end OLog
