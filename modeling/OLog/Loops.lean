import Mathlib.Logic.Function.Basic
import OLog.Execution

/-!
Several event loops that share the contexts. The queues live in the contexts,
but the map `sf_to_m` from a waiting feed to its message lives in each loop's
own processor. A loop that pops a feed which another loop has queued looks it
up in the wrong map and gets a null message. Calls of `exec` are atomic here
and may come from the loops in any order.
-/

namespace OLog

open Lib

/-- Loops that share one context map; `ι` names the loops. -/
structure Loops (ι : Type) where
  heap : Heap
  contextMap : ContextMap
  self : ι → DeficiencyProcessor
  /-- The address of the feed of each message so far, with the loop that
  executed the message. -/
  executedBy : List (Nat × ι)

namespace Loops

variable {ι : Type}

def start : Loops ι := ⟨Heap.empty, ContextMap.empty, fun _ => DeficiencyProcessor.fresh, []⟩

def queueOf (s : Loops ι) (code : String) : List FeedRef :=
  ((s.contextMap.getContext code).map (fun c => c.queue.toList)).getD []

/-- What `exec` of one loop works on. -/
def view (s : Loops ι) (i : ι) : ExecState := ⟨s.heap, s.contextMap, s.self i⟩

/-- The same, once the loop has consumed the message. -/
def called (s : Loops ι) (step : ι × Incoming) : ExecState :=
  ⟨(s.heap.alloc step.2.toMessage).2, s.contextMap, s.self step.1⟩

def after [DecidableEq ι] (s : Loops ι) (step : ι × Incoming) (t : ExecState) : Loops ι :=
  ⟨t.heap, t.contextMap, Function.update s.self step.1 t.self,
    s.executedBy ++ [(s.heap.brk + 1, step.1)]⟩

/-- A loop consumes a message and executes it. -/
def exec [DecidableEq ι] (s : Loops ι) (step : ι × Incoming) : Except Fault (Loops ι) := do
  let t ← DeficiencyProcessor.exec (s.called step) s.heap.brk
  pure (s.after step t)

def run [DecidableEq ι] (steps : List (ι × Incoming)) : Except Fault (Loops ι) :=
  steps.foldlM exec start

/-- A call in which every feed popped from a queue was found: the loop's map
leads from it to the message it came from, and that message's live count goes
from 1 to 0. A feed that the call itself queued and popped has been counted
live by the call before. -/
def Resolves (s : Loops ι) (step : ι × Incoming) (t : Loops ι) : Prop :=
  (∀ code, ∀ r ∈ s.queueOf code, r ∉ t.queueOf code →
    ∃ m msg, (s.self step.1).sfToM.get? r.addr = some m ∧ s.heap.get? m = some msg ∧
      msg.ref? = some r ∧ msg.live = 1 ∧ t.heap.get? m = some {msg with live := 0}) ∧
  ∀ sf, step.2.feed = .statistics sf → ¬ (s.view step.1).Late sf →
    ⟨s.heap.brk + 1, sf⟩ ∉ t.queueOf sf.feedcode →
      t.heap.get? s.heap.brk = some {step.2.toMessage (s.heap.brk + 1) with live := 0}

/-- Of the waiting feeds, those that an early message releases were all executed
by the loop that executes the message. -/
def OwnFeeds (s : Loops ι) (step : ι × Incoming) : Prop :=
  ∀ sf, step.2.feed = .statistics sf →
    ∀ context ∈ s.contextMap.getContext sf.feedcode,
      context.expectTimestamp < sf.exchangeTimestamp → ∀ r ∈ context.queue.toList,
        context.view.NoGapUpTo sf r.exchangeTimestamp → (r.addr, step.1) ∈ s.executedBy

/-- Every waiting feed is owned by one of the loops, the one that executed it,
and no other loop's map knows it. -/
structure Inv (s : Loops ι) : Prop where
  wf : s.heap.WF
  queued : ∀ code r, r ∈ s.queueOf code → r.feed.feedcode = code ∧
    ∃ i m, (s.view i).Owns m r ∧ (r.addr, i) ∈ s.executedBy
  nodup : ∀ code, ((s.queueOf code).map FeedRef.addr).Nodup
  mapped : ∀ i x m, (s.self i).sfToM.get? x = some m → (x, i) ∈ s.executedBy
  known : ∀ e ∈ s.executedBy, e.1 < s.heap.brk
  once : (s.executedBy.map Prod.fst).Nodup

theorem start_inv : (start : Loops ι).Inv := by
  refine ⟨Heap.WF.empty, ?_, fun _ => List.nodup_nil, ?_, ?_, List.nodup_nil⟩
  · intro code r hr
    cases hr
  · intro i x m hm
    cases hm
  · intro e he
    cases he

section Step

variable {s : Loops ι} {step : ι × Incoming}

theorem called_new (s : Loops ι) (step : ι × Incoming) :
    (s.called step).heap.get? s.heap.brk = some (step.2.toMessage (s.heap.brk + 1)) :=
  Heap.alloc_get?_new _ _

theorem Inv.called_old (h : s.Inv) {m : Nat} {msg : MyMessage}
    (hmsg : s.heap.get? m = some msg) : (s.called step).heap.get? m = some msg := by
  have hne : m ≠ s.heap.brk := (h.wf.below m msg hmsg).ne
  unfold called
  rw [Heap.alloc_get?, if_neg hne, hmsg]

theorem Inv.queued_below (h : s.Inv) {code : String} {r : FeedRef} (hr : r ∈ s.queueOf code) :
    r.addr < s.heap.brk := by
  obtain ⟨_, i, m, howns, _⟩ := h.queued code r hr
  obtain ⟨msg, hmsg, href, _⟩ := howns.held
  exact h.wf.feed_below m msg r hmsg href

/-- Waiting feeds are told apart by their addresses. -/
theorem Inv.eq_of_addr (h : s.Inv) {code code' : String} {r r' : FeedRef}
    (hr : r ∈ s.queueOf code) (hr' : r' ∈ s.queueOf code') (heq : r.addr = r'.addr) :
    r = r' := by
  obtain ⟨_, i, m, howns, _⟩ := h.queued code r hr
  obtain ⟨_, i', m', howns', _⟩ := h.queued code' r' hr'
  obtain ⟨msg, (hmsg : s.heap.get? m = some msg), href, _⟩ := howns.held
  obtain ⟨msg', (hmsg' : s.heap.get? m' = some msg'), href', _⟩ := howns'.held
  have hm : m = m' := h.wf.feed_inj m m' msg msg' r r' hmsg hmsg' href href' heq
  subst hm
  rw [hmsg] at hmsg'
  cases hmsg'
  rw [href] at href'
  exact Option.some.inj href'

/-- A loop that has executed a waiting feed owns it. -/
theorem Inv.owns (h : s.Inv) {code : String} {r : FeedRef} (hr : r ∈ s.queueOf code) {i : ι}
    (hi : (r.addr, i) ∈ s.executedBy) : ∃ m, (s.view i).Owns m r := by
  obtain ⟨_, j, m, howns, hj⟩ := h.queued code r hr
  have hsame : (r.addr, i) = (r.addr, j) := List.inj_on_of_nodup_map h.once hi hj rfl
  obtain rfl : i = j := congrArg Prod.snd hsame
  exact ⟨m, howns⟩

theorem Inv.owns_called (h : s.Inv) {m : Nat} {r : FeedRef}
    (howns : (s.view step.1).Owns m r) : (s.called step).Owns m r := by
  obtain ⟨msg, hmsg, href, hlive⟩ := howns.held
  exact ⟨howns.mapped, msg, h.called_old hmsg, href, hlive⟩

theorem Inv.once_concat (h : s.Inv) (i : ι) :
    ((s.executedBy ++ [(s.heap.brk + 1, i)]).map Prod.fst).Nodup := by
  rw [List.map_append, List.nodup_append]
  refine ⟨h.once, List.nodup_singleton _, ?_⟩
  rintro x hx y hy rfl
  obtain ⟨e, he, rfl⟩ := List.mem_map.mp hx
  have hlt := h.known e he
  have heq : e.1 = s.heap.brk + 1 := by simpa using hy
  omega

/-- The feeds at hand have distinct addresses. -/
theorem Inv.addr_nodup (h : s.Inv) (sf : StatisticsFeed) :
    (((⟨s.heap.brk + 1, sf⟩ : FeedRef) :: s.queueOf sf.feedcode).map FeedRef.addr).Nodup := by
  rw [List.map_cons, List.nodup_cons]
  refine ⟨?_, h.nodup _⟩
  intro hmem
  obtain ⟨r, hr, heq⟩ := List.mem_map.mp hmem
  have hlt := h.queued_below hr
  change r.addr = s.heap.brk + 1 at heq
  omega

/-- A call with its own feeds can release them. -/
theorem Inv.releasable (h : s.Inv) {sf : StatisticsFeed} (hfeed : step.2.feed = .statistics sf)
    (hown : s.OwnFeeds step) : (s.called step).Releasable ⟨s.heap.brk + 1, sf⟩ := by
  refine ⟨h.wf.alloc step.2.toMessage_places, h.addr_nodup sf, ?_⟩
  intro hearly r hr hle
  have hqueue : r ∈ s.queueOf sf.feedcode := hr
  cases hcontext : s.contextMap.getContext sf.feedcode with
  | none =>
      simp [queueOf, hcontext] at hqueue
  | some context =>
      have hfor : (s.called step).contextFor sf = context := by
        simp [ExecState.contextFor, called, hcontext]
      have hmem : r ∈ context.queue.toList := by
        simpa [queueOf, hcontext] using hqueue
      have htime : r.exchangeTimestamp ∈ timestamps (sf ::ₘ context.view.waiting) := by
        refine mem_timestamps.mpr ⟨r.feed, Multiset.mem_cons_of_mem ?_, rfl⟩
        exact Multiset.mem_coe.mpr (List.mem_map_of_mem hmem)
      rw [hfor] at hearly hle
      have hexecuted := hown sf hfeed context hcontext hearly r hmem
        ((Tracker.noGapUpTo_iff htime).mpr hle)
      obtain ⟨m, howns⟩ := h.owns hqueue hexecuted
      exact ⟨m, h.owns_called howns⟩

/-- A call that ends well has found the feeds it popped in the loop's own map. -/
theorem Inv.ownFeeds_of_ok (h : s.Inv) {t : ExecState}
    (hexec : DeficiencyProcessor.exec (s.called step) s.heap.brk = .ok t) : s.OwnFeeds step := by
  intro sf hfeed context hcontext hearly r hr hnoGap
  obtain ⟨i, message, feed⟩ := step
  cases hfeed
  have href := toMessage_statistics_ref? message sf (s.heap.brk + 1)
  obtain ⟨p, hready, hstate⟩ := exec_ready (called_new s (i, ⟨message, .statistics sf⟩)) href
  have hfor : (s.called (i, ⟨message, .statistics sf⟩)).contextFor sf = context := by
    simp [ExecState.contextFor, called, Option.mem_def.mp hcontext]
  rw [hready, hfor] at hexec
  have hne : context.expectTimestamp ≠ sf.exchangeTimestamp := by omega
  have hnlt : ¬ context.expectTimestamp > sf.exchangeTimestamp := by omega
  rw [DeficiencyProcessor.receive_eq] at hexec
  simp only [FeedRef.exchangeTimestamp, hne, hnlt, if_false] at hexec
  obtain ⟨out, hdrain, _⟩ := bind_eq_ok.mp hexec
  obtain ⟨_, hreleased⟩ := drain_released _ _ _ _ _ _ hdrain
  have hmapped := releaseAll_mapped hreleased r
  have htime : r.exchangeTimestamp ∈ timestamps (sf ::ₘ context.view.waiting) := by
    refine mem_timestamps.mpr ⟨r.feed, Multiset.mem_cons_of_mem ?_, rfl⟩
    exact Multiset.mem_coe.mpr (List.mem_map_of_mem hr)
  obtain ⟨m, hm⟩ := hmapped (by
    rw [drainGap_push]
    refine List.mem_filter.mpr ⟨(MinQueue.mem_push _ _ _).mpr (Or.inr hr), ?_⟩
    simpa using (Tracker.noGapUpTo_iff htime).mp hnoGap)
  have hqueue : r ∈ s.queueOf sf.feedcode := by
    simpa [queueOf, Option.mem_def.mp hcontext] using hr
  have haddr : r.addr ≠ s.heap.brk + 1 := by
    have := h.queued_below hqueue
    omega
  rw [hstate.sfToM, OrdMap.get?_insert_of_ne _ _ haddr] at hm
  exact h.mapped i r.addr m hm

variable [DecidableEq ι]

theorem exec_of_ok {t : ExecState}
    (h : DeficiencyProcessor.exec (s.called step) s.heap.brk = .ok t) :
    s.exec step = .ok (s.after step t) := by
  unfold exec
  rw [h]
  rfl

theorem after_self (s : Loops ι) (step : ι × Incoming) (t : ExecState) (j : ι) :
    (s.after step t).self j = if j = step.1 then t.self else s.self j :=
  Function.update_apply _ _ _ _

theorem Inv.known_concat (h : s.Inv) {t : ExecState} (hbrk : t.heap.brk = s.heap.brk + 2) :
    ∀ e ∈ (s.after step t).executedBy, e.1 < (s.after step t).heap.brk := by
  intro e he
  change e.1 < t.heap.brk
  rcases List.mem_append.mp he with he | he
  · have := h.known e he
    omega
  · rw [List.mem_singleton.mp he]
    omega

/-- A Price message leaves the queues and the maps as they are. -/
theorem Inv.price (h : s.Inv) {pf : PriceFeed} (hfeed : step.2.feed = .price pf) :
    ∃ t, s.exec step = .ok t ∧ Resolves s step t ∧ t.Inv := by
  obtain ⟨i, message, feed⟩ := step
  cases hfeed
  let e := s.called (i, ⟨message, .price pf⟩)
  have hexec : DeficiencyProcessor.exec e s.heap.brk = .ok (e.setRes e.self.res.clear) :=
    exec_price (called_new s (i, ⟨message, .price pf⟩)) rfl
  have hmap : ∀ j, ((s.after (i, ⟨message, .price pf⟩) (e.setRes e.self.res.clear)).self j).sfToM =
      (s.self j).sfToM := by
    intro j
    rw [after_self]
    split_ifs with hj
    · rw [hj]
      rfl
    · rfl
  refine ⟨_, exec_of_ok hexec, ⟨fun code r hr hnot => absurd hr hnot, ?_⟩,
    h.wf.alloc (Incoming.toMessage_places _), ?_, h.nodup, ?_, h.known_concat rfl,
    h.once_concat i⟩
  · intro sf hsf
    cases hsf
  · intro code r hr
    obtain ⟨hcode, j, m, howns, hj⟩ := h.queued code r hr
    obtain ⟨msg, hmsg, href, hlive⟩ := howns.held
    refine ⟨hcode, j, m, ⟨?_, msg, h.called_old hmsg, href, hlive⟩, List.mem_append_left _ hj⟩
    change ((s.after _ _).self j).sfToM.get? r.addr = some m
    rw [hmap]
    exact howns.mapped
  · intro j x m hm
    rw [hmap] at hm
    exact List.mem_append_left _ (h.mapped j x m hm)

/-- A waiting feed that a call does not release stays with its owner. -/
theorem Inv.keeps (h : s.Inv) {sf : StatisticsFeed} {t : ExecState} {l : List FeedRef}
    (hdone : Executed (s.called step) s.heap.brk ⟨s.heap.brk + 1, sf⟩ l t) {code : String}
    {r : FeedRef} (hr : r ∈ s.queueOf code) (hl : r.addr ∉ l.map FeedRef.addr) :
    r.feed.feedcode = code ∧ ∃ i m, ((s.after step t).view i).Owns m r ∧
      (r.addr, i) ∈ (s.after step t).executedBy := by
  obtain ⟨hcode, i, m, howns, hi⟩ := h.queued code r hr
  obtain ⟨msg, hmsg, href, hlive⟩ := howns.held
  have hm : m ≠ s.heap.brk := (h.wf.below m msg hmsg).ne
  have haddr : r.addr ≠ s.heap.brk + 1 := by
    have := h.queued_below hr
    omega
  have hnot : r ∉ l := fun hmem => hl (List.mem_map_of_mem hmem)
  refine ⟨hcode, i, m, ⟨?_, msg, ?_, href, hlive⟩, List.mem_append_left _ hi⟩
  · change ((s.after step t).self i).sfToM.get? r.addr = some m
    rw [after_self]
    split_ifs with his
    · rw [hdone.sfToM, if_neg hl, if_neg haddr, ← howns.mapped, his]
      rfl
    · exact howns.mapped
  · change t.heap.get? m = some msg
    rw [hdone.heap, h.called_old hmsg, Option.map_some, if_neg hm, settle_of_notMem href hnot]

section Statistics

variable {sf : StatisticsFeed} {t : ExecState} {l : List FeedRef}

/-- A call keeps what is known about the loops. -/
theorem Inv.statistics (h : s.Inv) (hfeed : step.2.feed = .statistics sf)
    (hdone : Executed (s.called step) s.heap.brk ⟨s.heap.brk + 1, sf⟩ l t) :
    (s.after step t).Inv := by
  obtain ⟨i, message, feed⟩ := step
  cases hfeed
  have hbrk : t.heap.brk = s.heap.brk + 2 := hdone.brk
  have hwf := h.wf.alloc (Incoming.toMessage_places ⟨message, .statistics sf⟩)
  refine ⟨hwf.of_map hdone.brk _ hdone.heap ?_, ?_, ?_, ?_, h.known_concat hbrk,
    h.once_concat i⟩
  · intro a x
    split_ifs <;> simp
  · intro code r hr
    change r ∈ t.queueOf code at hr
    by_cases hcode : code = sf.feedcode
    · subst hcode
      have hl := hdone.queued_not_released (h.addr_nodup sf) hr
      rcases hdone.queue_subset hr with rfl | hold
      · -- the arriving feed waits for its own loop
        have hnot : (⟨s.heap.brk + 1, sf⟩ : FeedRef) ∉ l :=
          fun hmem => hl (List.mem_map_of_mem hmem)
        refine ⟨rfl, i, s.heap.brk, ⟨?_, {Incoming.toMessage ⟨message, .statistics sf⟩
          (s.heap.brk + 1) with live := 1}, ?_, rfl, rfl⟩, by simp [after]⟩
        · change ((s.after _ t).self i).sfToM.get? (s.heap.brk + 1) = some s.heap.brk
          rw [after_self, if_pos rfl, hdone.sfToM, if_neg hl, if_pos rfl]
        · change t.heap.get? s.heap.brk = _
          rw [hdone.heap, called_new, Option.map_some, if_pos rfl]
          exact congrArg some (settle_of_notMem rfl hnot)
      · exact h.keeps hdone hold hl
    · rw [hdone.queueOf_other hcode] at hr
      refine h.keeps hdone hr ?_
      intro hmem
      obtain ⟨r', hr', heq⟩ := List.mem_map.mp hmem
      rcases hdone.released_subset hr' with rfl | hold
      · have := h.queued_below hr
        change s.heap.brk + 1 = r.addr at heq
        omega
      · have hwaits : r' ∈ s.queueOf sf.feedcode := hold
        have hsame : r' = r := h.eq_of_addr hwaits hr heq
        exact hcode ((h.queued code r hr).1.symm.trans
          (hsame ▸ (h.queued sf.feedcode r' hold).1))
  · intro code
    change ((t.queueOf code).map FeedRef.addr).Nodup
    by_cases hcode : code = sf.feedcode
    · subst hcode
      have hqueue := hdone.queue
      split_ifs at hqueue with hlate
      · rw [hqueue.2]
        exact h.nodup _
      · have hnodup := h.addr_nodup sf
        rw [show s.queueOf sf.feedcode = (s.called (i, ⟨message, .statistics sf⟩)).queueOf
          sf.feedcode from rfl, ← (hqueue.map FeedRef.addr).nodup_iff, List.map_append] at hnodup
        exact hnodup.of_append_left
    · rw [hdone.queueOf_other hcode]
      exact h.nodup code
  · intro j x m hm
    rw [after_self] at hm
    split_ifs at hm with hj
    · subst hj
      rw [hdone.sfToM] at hm
      split_ifs at hm with hx hnew
      · rw [hnew]
        simp [after]
      · exact List.mem_append_left _ (h.mapped _ x m hm)
    · exact List.mem_append_left _ (h.mapped j x m hm)

/-- A call whose released feeds are the loop's own resolves them. -/
theorem Inv.resolves (h : s.Inv) (hfeed : step.2.feed = .statistics sf)
    (hdone : Executed (s.called step) s.heap.brk ⟨s.heap.brk + 1, sf⟩ l t)
    (howners : ∀ r ∈ l, r = ⟨s.heap.brk + 1, sf⟩ ∨ ∃ m, (s.called step).Owns m r) :
    Resolves s step (s.after step t) := by
  have hqueue := hdone.queue
  obtain ⟨i, message, feed⟩ := step
  cases hfeed
  refine ⟨?_, ?_⟩
  · intro code r hr hgone
    change r ∉ t.queueOf code at hgone
    have hcode : code = sf.feedcode := by
      by_contra hne
      rw [hdone.queueOf_other hne] at hgone
      exact hgone hr
    subst hcode
    split_ifs at hqueue with hlate
    · rw [hqueue.2] at hgone
      exact absurd hr hgone
    · have hl : r ∈ l :=
        (List.mem_append.mp (hqueue.mem_iff.mpr (List.mem_cons_of_mem _ hr))).resolve_left hgone
      rcases howners r hl with rfl | ⟨m, howns⟩
      · have := h.queued_below hr
        change s.heap.brk + 1 < s.heap.brk at this
        omega
      · obtain ⟨msg, hmsg, href, hlive⟩ := howns.held
        have hm : m ≠ s.heap.brk := by
          rintro rfl
          rw [called_new] at hmsg
          cases hmsg
          cases hlive
        have hold : s.heap.get? m = some msg := by
          unfold called at hmsg
          rwa [Heap.alloc_get?, if_neg hm] at hmsg
        refine ⟨m, msg, howns.mapped, hold, href, hlive, ?_⟩
        change t.heap.get? m = _
        rw [hdone.heap, hmsg, Option.map_some, if_neg hm, settle_of_mem href hl]
  · intro sf' hsf' hlate hgone
    cases hsf'
    change ⟨s.heap.brk + 1, sf⟩ ∉ t.queueOf sf.feedcode at hgone
    rw [if_neg (show ¬ (s.called _).Late sf from hlate)] at hqueue
    have hl : (⟨s.heap.brk + 1, sf⟩ : FeedRef) ∈ l :=
      (List.mem_append.mp (hqueue.mem_iff.mpr List.mem_cons_self)).resolve_left hgone
    change t.heap.get? s.heap.brk = _
    rw [hdone.heap, called_new, Option.map_some, if_pos rfl]
    exact congrArg some (settle_of_mem rfl hl)

end Statistics

/-- One call: it succeeds, and resolves what it pops, exactly if the feeds it
pops are the loop's own. -/
theorem Inv.exec_iff (h : s.Inv) (step : ι × Incoming) :
    (s.OwnFeeds step → ∃ t, s.exec step = .ok t ∧ Resolves s step t ∧ t.Inv) ∧
      ∀ t, s.exec step = .ok t → s.OwnFeeds step := by
  constructor
  · intro hown
    cases hfeed : step.2.feed with
    | price pf => exact h.price hfeed
    | statistics sf =>
        have href : (step.2.toMessage (s.heap.brk + 1)).ref? = some ⟨s.heap.brk + 1, sf⟩ := by
          unfold Incoming.toMessage
          rw [hfeed]
          rfl
        obtain ⟨t, l, hexec, hdone, howners⟩ :=
          exec_releasable (h.releasable hfeed hown) (called_new s step) href rfl
        exact ⟨_, exec_of_ok hexec, h.resolves hfeed hdone howners, h.statistics hfeed hdone⟩
  · intro t ht
    obtain ⟨e, he, _⟩ := bind_eq_ok.mp ht
    exact h.ownFeeds_of_ok he

end Step

variable [DecidableEq ι]

theorem run_inv {steps : List (ι × Incoming)} {s : Loops ι} (hrun : run steps = .ok s) :
    s.Inv := by
  refine foldlM_ok_history (I := fun _ s => Inv s) hrun start_inv ?_
  intro seen step u v _ hu hv
  obtain ⟨hsucceeds, hneeds⟩ := hu.exec_iff step
  obtain ⟨v', hv', _, hinv⟩ := hsucceeds (hneeds v hv)
  rw [hv] at hv'
  cases hv'
  exact hinv

/-- For any number of loops and any order of their calls: every call resolves
every feed that it pops exactly if every call only pops feeds that the same
loop has executed. -/
theorem shared_feeds_resolved_iff (steps : List (ι × Incoming)) :
    (∀ n (hn : n < steps.length), ∃ s t, run (steps.take n) = .ok s ∧
        s.exec steps[n] = .ok t ∧ Resolves s steps[n] t) ↔
      ∀ n (hn : n < steps.length), ∀ s, run (steps.take n) = .ok s → s.OwnFeeds steps[n] := by
  refine forall_step_iff exec (I := Inv) steps start_inv ?_
  intro s step _ h
  exact ⟨(h.exec_iff step).1, fun t ht _ => (h.exec_iff step).2 t ht⟩

end Loops

/-- A Statistics message at a tick of the sample feedcode. -/
def tickMessage (i : Nat) : Incoming := ⟨⟨"feed", 0, i⟩, .statistics (sampleFeed i 1)⟩

/-- The first loop queues tick 2, the second one fills the gap before it and
then pops it: its own map has no entry for the feed, and the null message is
used. -/
theorem shared_feed_unresolved :
    Loops.run [(true, tickMessage 0), (true, tickMessage 2), (false, tickMessage 1),
      (false, tickMessage 3)] = .error .nullMessage := by
  apply eq_error_of_check
  decide +kernel

end OLog
