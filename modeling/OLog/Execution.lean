import OLog.ExecSpec

/-!
`exec` cannot fail on a message that is not live yet, does what its tracker
says, and keeps ownership. The three cases are those of the source: the feed
is on time, late, or early.
-/

namespace OLog

open Lib DeficiencyProcessor

section Cases

variable {s p : ExecState} {m : Nat} {msg : MyMessage} {r : FeedRef}

/-- The tracker's step, from the context in which the feed is received. -/
theorem tracker_exec_eq (s : ExecState) (sf : StatisticsFeed) :
    Tracker.exec (s.tracker sf.feedcode) sf =
      (((s.contextFor sf).view.receive sf).1,
        Tracker.invalidAlerts sf ++ ((s.contextFor sf).view.receive sf).2) := by
  unfold Tracker.exec
  rw [s.contextFor_view sf]

/-- An outcome is determined by the context it stores, the alerts it records
and the feeds it releases. -/
theorem executed_of_settled (hready : Ready s m msg r p) (hmsg : s.heap.get? m = some msg)
    (hlive : msg.live = 0) {t u : ExecState} {l : List FeedRef} (context : Context)
    (hset : Settled p l u) (hheap : t.heap = u.heap) (hmap : t.self.sfToM = u.self.sfToM)
    (hcontexts : ∀ code, t.contextMap.getContext code =
      if code = r.feed.feedcode then some context else p.contextMap.getContext code)
    (hview : context.view = ((s.contextFor r.feed).view.receive r.feed).1)
    (hjson : t.self.res.json =
      p.self.res.json ++ ((s.contextFor r.feed).view.receive r.feed).2)
    (hcode : t.self.res.code =
      codeAfter p.self.res.code ((s.contextFor r.feed).view.receive r.feed).2)
    (hqueue : if s.Late r.feed then l = [] ∧ context.queue.toList = s.queueOf r.feed.feedcode
      else (context.queue.toList ++ l).Perm (r :: s.queueOf r.feed.feedcode)) :
    Executed s m r l t := by
  obtain ⟨hbrk, hget, hsf⟩ := hready.settled hmsg hlive hset
  rw [← hheap] at hbrk hget
  rw [← hmap] at hsf
  have hself : t.contextMap.getContext r.feed.feedcode = some context := by
    rw [hcontexts, if_pos rfl]
  have hqueueOf : t.queueOf r.feed.feedcode = context.queue.toList := by
    simp [ExecState.queueOf, hself]
  refine ⟨?_, ?_, ?_, ?_, hbrk, hget, hsf, ?_⟩
  · rw [tracker_exec_eq, ← hview]
    simp [ExecState.tracker, hself]
  · intro code hne
    rw [hcontexts, if_neg hne, hready.context, if_neg hne]
  · rw [tracker_exec_eq, hjson, hready.json]
  · rw [tracker_exec_eq, hcode, hready.code, codeAfter_append]
  · rw [hqueueOf]
    exact hqueue

theorem receive_onTime_executed (hcan : s.Releasable r) (hready : Ready s m msg r p)
    (hmsg : s.heap.get? m = some msg) (href : msg.ref? = some r) (hlive : msg.live = 0)
    (ht : (s.contextFor r.feed).expectTimestamp = r.exchangeTimestamp) :
    ∃ t l, receive p (s.contextFor r.feed) r = .ok t ∧ Executed s m r l t ∧
      ∀ r' ∈ l, r' = r ∨ ∃ m', s.Owns m' r' := by
  let context := s.contextFor r.feed
  let next : Context := {context with expectTimestamp := context.expectTimestamp + interval}
  let q := p.putContext r.feed.feedcode next
  have hself : p.Owns m r := hready.owns_self href hlive
  have hq : q.Owns m r := ⟨hself.mapped, hself.held⟩
  obtain ⟨t, hrelease, hset⟩ :=
    release_owned (s := q) (hready.heap_wf hmsg hlive hcan.wf) hq
  have hlate : ¬ s.Late r.feed := by
    have hts : r.exchangeTimestamp = r.feed.exchangeTimestamp := rfl
    unfold ExecState.Late
    omega
  have hreceive : (s.contextFor r.feed).view.receive r.feed = (next.view, []) :=
    Tracker.receive_onTime ht
  have hres : t.self.res = p.self.res := hset.res
  refine ⟨t, [r], ?_, ?_, fun r' hr' => Or.inl (List.mem_singleton.mp hr')⟩
  · rw [receive_eq]
    simp only [ht, if_true]
    rw [← ht]
    exact hrelease
  · have hset' : Settled p [r] {t with contextMap := p.contextMap} :=
      ⟨rfl, hset.res, hset.brk, hset.heap, hset.sfToM⟩
    refine executed_of_settled hready hmsg hlive next hset' rfl rfl ?_ ?_ ?_ ?_ ?_
    · intro code
      rw [hset.contextMap]
      exact ContextMap.getContext_put _ _ _ _
    · rw [hreceive]
    · rw [hreceive, hres, List.append_nil]
    · rw [hreceive, hres]
      rfl
    · rw [if_neg hlate, ← s.contextFor_queue]
      exact List.perm_append_singleton _ _

theorem receive_late_executed (hready : Ready s m msg r p)
    (hmsg : s.heap.get? m = some msg) (hlive : msg.live = 0)
    (ht : r.exchangeTimestamp < (s.contextFor r.feed).expectTimestamp) :
    ∃ t l, receive p (s.contextFor r.feed) r = .ok t ∧ Executed s m r l t ∧
      ∀ r' ∈ l, r' = r ∨ ∃ m', s.Owns m' r' := by
  let context := s.contextFor r.feed
  let alert := Tracker.delayAlert r.feed context.expectTimestamp
  have hne : (s.contextFor r.feed).expectTimestamp ≠ r.exchangeTimestamp := by omega
  have hreceive : (s.contextFor r.feed).view.receive r.feed = (context.view, [alert]) :=
    Tracker.receive_late ht
  have hlate : s.Late r.feed := ht
  refine ⟨p.warn alert, [], ?_, ?_, fun r' hr' => (List.not_mem_nil hr').elim⟩
  · rw [receive_eq]
    simp only [hne, if_false, gt_iff_lt, ht, if_true]
    rfl
  · refine executed_of_settled hready hmsg hlive context (Settled.refl p) rfl rfl
      ?_ ?_ ?_ ?_ ?_
    · intro code
      change p.contextMap.getContext code = _
      by_cases hcode : code = r.feed.feedcode
      · simp [hcode, hready.context, context]
      · simp [hcode]
    · rw [hreceive]
    · rw [hreceive]
      rfl
    · rw [hreceive]
      rfl
    · rw [if_pos hlate]
      exact ⟨rfl, s.contextFor_queue r.feed⟩

/-- What `receive` leaves behind when an early feed has come: the feeds up to the
gap are released, which led to `u`, and everything else is the tracker's step. -/
structure Received (u : ExecState) (context : Context) (r : FeedRef) (after : Context)
    (t : ExecState) : Prop where
  heap : t.heap = u.heap
  sfToM : t.self.sfToM = u.self.sfToM
  contextMap : t.contextMap = u.contextMap.put r.feed.feedcode after
  view : after.view = (context.view.receive r.feed).1
  queue : after.queue = (drainedContext context r).queue
  json : t.self.res.json = u.self.res.json ++ (context.view.receive r.feed).2
  code : t.self.res.code = codeAfter u.self.res.code (context.view.receive r.feed).2

/-- The continuity check records alerts but does not warn. -/
theorem codeAfter_continuityAlerts (code : Status) (tracker : Tracker) (sf : StatisticsFeed)
    (n : Nat) : codeAfter code (tracker.continuityAlerts sf n) = code := by
  have hquiet : (tracker.continuityAlerts sf n).any Alert.warns = false := by
    unfold Tracker.continuityAlerts
    split_ifs with hbelow
    · simp [Tracker.monotonicityAlert, Alert.warns]
    · rfl
  simp [codeAfter, hquiet]

theorem receive_early {u : ExecState} {context : Context}
    (ht : context.expectTimestamp < r.exchangeTimestamp)
    (hu : releaseAll (popped (context.queue.push r).toList
      (drainGap (context.queue.push r).toList context.expectTimestamp)) p = .ok u) :
    ∃ t after, receive p context r = .ok t ∧ Received u context r after t := by
  have hne : context.expectTimestamp ≠ r.exchangeTimestamp := by omega
  have hnlt : ¬ context.expectTimestamp > r.exchangeTimestamp := by omega
  have hdrain := drain_closed r _ (context.queue.push r).sorted _ context p u hu
  have halerts : loopAlerts context r.feed
      (drainCount (context.queue.push r).toList context.expectTimestamp) =
        context.view.continuityAlerts r.feed (context.view.run r.feed) := by
    rw [drainCount_push, loopAlerts_view]
  have hgap : (drainedContext context r).expectTimestamp = context.view.gap r.feed :=
    drainGap_push context r
  have hview := drainedContext_view context r
  have hsize := drainedContext_size context r
  rw [receive_eq]
  simp only [hne, hnlt, if_false]
  rw [hdrain, halerts]
  change ∃ t after, (if (drainedContext context r).queue.size > queueLimit then _ else _) = _ ∧ _
  by_cases hlimit : (drainedContext context r).queue.size > queueLimit
  · -- the tick at the gap is given up
    have hreceive : context.view.receive r.feed = _ := Tracker.receive_early_miss ht (by omega)
    rw [if_pos hlimit]
    refine ⟨_, {drainedContext context r with
      expectTimestamp := (drainedContext context r).expectTimestamp + interval}, rfl,
      rfl, rfl, rfl, ?_, rfl, ?_, ?_⟩
    · rw [hreceive, ← hview, ← hgap]
      rfl
    · rw [hreceive, ← hgap, ← List.append_assoc]
      rfl
    · rw [hreceive, codeAfter_append, codeAfter_continuityAlerts]
      rfl
  · -- the feeds behind the gap go on waiting
    have hreceive : context.view.receive r.feed = _ := Tracker.receive_early_wait ht (by omega)
    rw [if_neg hlimit]
    refine ⟨_, drainedContext context r, rfl, rfl, rfl, rfl, ?_, rfl, ?_, ?_⟩
    · rw [hreceive, ← hview]
    · rw [hreceive]
      rfl
    · rw [hreceive, codeAfter_continuityAlerts]
      rfl

theorem receive_early_executed (hcan : s.Releasable r) (hready : Ready s m msg r p)
    (hmsg : s.heap.get? m = some msg) (href : msg.ref? = some r) (hlive : msg.live = 0)
    (ht : (s.contextFor r.feed).expectTimestamp < r.exchangeTimestamp) :
    ∃ t l, receive p (s.contextFor r.feed) r = .ok t ∧ Executed s m r l t ∧
      ∀ r' ∈ l, r' = r ∨ ∃ m', s.Owns m' r' := by
  let context := s.contextFor r.feed
  let queue := context.queue.push r
  let gap := drainGap queue.toList context.expectTimestamp
  let gone := popped queue.toList gap
  have hperm : queue.toList.Perm (r :: s.queueOf r.feed.feedcode) := by
    rw [← s.contextFor_queue]
    exact context.queue.push_perm r
  have hnodup : (queue.toList.map FeedRef.addr).Nodup := by
    rw [(hperm.map FeedRef.addr).nodup_iff]
    exact hcan.nodup
  have hgap : gap = context.view.gap r.feed := drainGap_push context r
  have hgone : ∀ r' ∈ gone, r' = r ∨ r'.addr ≠ r.addr ∧ ∃ m', s.Owns m' r' := by
    intro r' hr'
    obtain ⟨hmem, hle⟩ := List.mem_filter.mp hr'
    refine (List.mem_cons.mp (hperm.mem_iff.mp hmem)).imp_right fun hold => ⟨?_, ?_⟩
    · exact fun heq => (List.nodup_cons.mp hcan.nodup).1 (heq ▸ List.mem_map_of_mem hold)
    · rw [hgap] at hle
      exact hcan.owned ht r' hold (by simpa using hle)
  have howned : ∀ r' ∈ gone, ∃ m', p.Owns m' r' := by
    intro r' hr'
    rcases hgone r' hr' with rfl | ⟨haddr, m', howns⟩
    · exact ⟨m, hready.owns_self href hlive⟩
    · exact ⟨m', hready.owns_queued hmsg hlive howns haddr⟩
  obtain ⟨u, hu, hset⟩ := releaseAll_owned (hready.heap_wf hmsg hlive hcan.wf)
    (hnodup.sublist ((List.filter_sublist).map _)) howned
  obtain ⟨t, after, hreceive, hdone⟩ := receive_early ht hu
  have hlate : ¬ s.Late r.feed := by
    have hts : r.exchangeTimestamp = r.feed.exchangeTimestamp := rfl
    unfold ExecState.Late
    omega
  refine ⟨t, gone, hreceive, ?_, fun r' hr' => (hgone r' hr').imp_right And.right⟩
  refine executed_of_settled hready hmsg hlive after hset hdone.heap hdone.sfToM ?_ hdone.view
    ?_ ?_ ?_
  · intro code
    rw [hdone.contextMap, hset.contextMap]
    exact ContextMap.getContext_put _ _ _ _
  · rw [hdone.json, hset.res]
  · rw [hdone.code, hset.res]
  · rw [if_neg hlate, hdone.queue]
    exact (left_append_popped queue.toList gap).trans hperm

/-- `exec` of a Statistics message that is not live yet. -/
theorem exec_releasable (hcan : s.Releasable r) (hmsg : s.heap.get? m = some msg)
    (href : msg.ref? = some r) (hlive : msg.live = 0) :
    ∃ t l, exec s m = .ok t ∧ Executed s m r l t ∧
      ∀ r' ∈ l, r' = r ∨ ∃ m', s.Owns m' r' := by
  obtain ⟨p, hexec, hready⟩ := exec_ready hmsg href
  rw [hexec]
  rcases lt_trichotomy (s.contextFor r.feed).expectTimestamp r.exchangeTimestamp with ht | ht | ht
  · exact receive_early_executed hcan hready hmsg href hlive ht
  · exact receive_onTime_executed hcan hready hmsg href hlive ht
  · exact receive_late_executed hready hmsg hlive ht

theorem exec_executed (hown : s.Owned) (hmsg : s.heap.get? m = some msg)
    (href : msg.ref? = some r) (hlive : msg.live = 0) :
    ∃ t l, exec s m = .ok t ∧ Executed s m r l t := by
  obtain ⟨t, l, hexec, hdone, _⟩ :=
    exec_releasable (hown.releasable hmsg href hlive) hmsg href hlive
  exact ⟨t, l, hexec, hdone⟩

/-- Receiving a feed in its context is the tracker's step, in whatever state it
ends well. -/
theorem receive_tracks {t : ExecState} {context : Context} (h : receive p context r = .ok t) :
    t.self.res.json = p.self.res.json ++ (context.view.receive r.feed).2 ∧
      (p.contextMap.getContext r.feed.feedcode = some context →
        ∃ after, t.contextMap.getContext r.feed.feedcode = some after ∧
          after.view = (context.view.receive r.feed).1) := by
  have hreceive := h
  rw [receive_eq] at h
  rcases lt_trichotomy context.expectTimestamp r.exchangeTimestamp with ht | ht | ht
  · have hne : context.expectTimestamp ≠ r.exchangeTimestamp := by omega
    have hnlt : ¬ context.expectTimestamp > r.exchangeTimestamp := by omega
    simp only [hne, hnlt, if_false] at h
    obtain ⟨_, hdrain, _⟩ := bind_eq_ok.mp h
    obtain ⟨u, hu⟩ := drain_released _ _ _ _ _ _ hdrain
    obtain ⟨t', after, ht', hdone⟩ := receive_early ht hu
    rw [hreceive] at ht'
    cases ht'
    refine ⟨by rw [hdone.json, releaseAll_res hu], fun _ => ⟨after, ?_, hdone.view⟩⟩
    rw [hdone.contextMap]
    exact ContextMap.getContext_put_self _ _ _
  · have hview : context.view.receive r.feed = _ := Tracker.receive_onTime ht
    rw [if_pos ht] at h
    obtain ⟨_, _, hres⟩ := release_mapped h
    rw [hview]
    refine ⟨?_, fun _ => ⟨{context with
      expectTimestamp := context.expectTimestamp + interval}, ?_, rfl⟩⟩
    · rw [hres, List.append_nil]
      rfl
    · rw [release_contextMap h]
      exact ContextMap.getContext_put_self _ _ _
  · have hne : context.expectTimestamp ≠ r.exchangeTimestamp := by omega
    simp only [hne, gt_iff_lt, ht, if_false, if_true] at h
    cases h
    rw [Tracker.receive_late ht]
    exact ⟨rfl, fun hcontext => ⟨context, hcontext, rfl⟩⟩

theorem exec_alerts {t : ExecState} (hmsg : s.heap.get? m = some msg)
    (href : msg.ref? = some r) (hexec : exec s m = .ok t) :
    t.self.res.json = (Tracker.exec (s.tracker r.feed.feedcode) r.feed).2 := by
  obtain ⟨p, hp, hready⟩ := exec_ready hmsg href
  rw [hp] at hexec
  rw [(receive_tracks hexec).1, hready.json, tracker_exec_eq]

/-- A Price message only clears the result. -/
theorem exec_price {s : ExecState} {m : Nat} {msg : MyMessage}
    (hmsg : s.heap.get? m = some msg) (htype : msg.type = .price) :
    exec s m = .ok (s.setRes s.self.res.clear) := by
  have hderef : (s.setRes s.self.res.clear).heap.deref m = .ok msg := Heap.deref_of_get? hmsg
  rw [exec_eq]
  simp only [hderef, ok_bind, htype]

/-- The feeds that were at hand: the arriving one and those already queued. -/
theorem Executed.released_subset {t : ExecState} {l : List FeedRef} (h : Executed s m r l t)
    {r' : FeedRef} (hr' : r' ∈ l) : r' = r ∨ r' ∈ s.queueOf r.feed.feedcode := by
  have hqueue := h.queue
  split_ifs at hqueue with hlate
  · rw [hqueue.1] at hr'
    cases hr'
  · exact List.mem_cons.mp (hqueue.mem_iff.mp (List.mem_append_right _ hr'))

theorem Executed.queue_subset {t : ExecState} {l : List FeedRef} (h : Executed s m r l t)
    {r' : FeedRef} (hr' : r' ∈ t.queueOf r.feed.feedcode) :
    r' = r ∨ r' ∈ s.queueOf r.feed.feedcode := by
  have hqueue := h.queue
  split_ifs at hqueue with hlate
  · rw [hqueue.2] at hr'
    exact Or.inr hr'
  · exact List.mem_cons.mp (hqueue.mem_iff.mp (List.mem_append_left _ hr'))

theorem Executed.queueOf_other {t : ExecState} {l : List FeedRef} (h : Executed s m r l t)
    {code : String} (hcode : code ≠ r.feed.feedcode) : t.queueOf code = s.queueOf code := by
  unfold ExecState.queueOf
  rw [h.others code hcode]

/-- A feed that waits before stays in its queue or is released; so does the
arriving one, unless it is late. -/
theorem Executed.stays {s : ExecState} {m : Nat} {r : FeedRef} {released : List FeedRef}
    {t : ExecState} (h : Executed s m r released t) (hnot : ¬ s.Late r.feed) {code : String}
    {r' : FeedRef} (hr' : r' ∈ s.queueOf code ∨ r' = r ∧ code = r.feed.feedcode)
    (hkept : r' ∉ released) : r' ∈ t.queueOf code := by
  have hqueue := h.queue
  rw [if_neg hnot] at hqueue
  by_cases hcode : code = r.feed.feedcode
  · subst hcode
    have hmem : r' ∈ r :: s.queueOf r.feed.feedcode := by
      rcases hr' with hr' | ⟨rfl, _⟩
      · exact List.mem_cons_of_mem _ hr'
      · exact List.mem_cons_self
    exact (List.mem_append.mp (hqueue.mem_iff.mpr hmem)).resolve_right hkept
  · rw [h.queueOf_other hcode]
    exact hr'.resolve_right (fun hboth => hcode hboth.2)

/-- A feed that still waits was not released, not even under another name. -/
theorem Executed.queued_not_released {t : ExecState} {l : List FeedRef}
    (h : Executed s m r l t) (hnodup : ((r :: s.queueOf r.feed.feedcode).map FeedRef.addr).Nodup)
    {r' : FeedRef} (hr' : r' ∈ t.queueOf r.feed.feedcode) : r'.addr ∉ l.map FeedRef.addr := by
  have hqueue := h.queue
  split_ifs at hqueue with hlate
  · simp [hqueue.1]
  · rw [← (hqueue.map FeedRef.addr).nodup_iff, List.map_append] at hnodup
    exact List.disjoint_of_nodup_append hnodup (List.mem_map_of_mem hr')

/-- An owned feed that the execution does not touch stays owned. -/
theorem Executed.owns_other {t : ExecState} {l : List FeedRef} (h : Executed s m r l t)
    {m' : Nat} {r' : FeedRef} (howns : s.Owns m' r') (hm : m' ≠ m)
    (hr : r'.addr ≠ r.addr) (hl : r'.addr ∉ l.map FeedRef.addr) : t.Owns m' r' := by
  obtain ⟨msg', hmsg', href', hlive'⟩ := howns.held
  have hnot : r' ∉ l := fun hmem => hl (List.mem_map_of_mem hmem)
  refine ⟨?_, msg', ?_, href', hlive'⟩
  · rw [h.sfToM, if_neg hl, if_neg hr, howns.mapped]
  · rw [h.heap, hmsg', Option.map_some, if_neg hm, settle_of_notMem href' hnot]

theorem Executed.owned {t : ExecState} {l : List FeedRef} (h : Executed s m r l t)
    (hown : s.Owned) (hmsg : s.heap.get? m = some msg) (href : msg.ref? = some r)
    (hlive : msg.live = 0) : t.Owned := by
  -- a queued feed's message is live, so it is not the executed one
  have hqueued : ∀ code r', r' ∈ s.queueOf code → r'.addr ∉ l.map FeedRef.addr →
      ∃ m', t.Owns m' r' := by
    intro code r' hr' hl
    obtain ⟨_, m', howns⟩ := hown.queued code r' hr'
    refine ⟨m', h.owns_other howns ?_ (hown.fresh_feed hmsg href hlive hr') hl⟩
    rintro rfl
    obtain ⟨msg', hmsg', _, hlive'⟩ := howns.held
    rw [hmsg] at hmsg'
    cases hmsg'
    omega
  refine ⟨?_, ?_, ?_⟩
  · refine hown.wf.of_map h.brk _ h.heap ?_
    intro a x
    split_ifs <;> simp
  · intro code r' hr'
    by_cases hcode : code = r.feed.feedcode
    · subst hcode
      have hl := h.queued_not_released (hown.addr_nodup hmsg href hlive _) hr'
      rcases h.queue_subset hr' with rfl | hold
      · refine ⟨rfl, m, ?_, {msg with live := 1}, ?_, href, rfl⟩
        · rw [h.sfToM, if_neg hl, if_pos rfl]
        · have hnot : r' ∉ l := fun hmem => hl (List.mem_map_of_mem hmem)
          rw [h.heap, hmsg, Option.map_some, if_pos rfl]
          exact congrArg some (settle_of_notMem href hnot)
      · exact ⟨(hown.queued _ r' hold).1, hqueued _ r' hold hl⟩
    · rw [h.queueOf_other hcode] at hr'
      obtain ⟨hfeedcode, m', howns⟩ := hown.queued code r' hr'
      refine ⟨hfeedcode, hqueued code r' hr' ?_⟩
      intro hmem
      obtain ⟨r'', hr'', heq⟩ := List.mem_map.mp hmem
      rcases h.released_subset hr'' with rfl | hold
      · exact hown.fresh_feed hmsg href hlive hr' heq.symm
      · obtain ⟨hfeedcode', m'', howns'⟩ := hown.queued _ r'' hold
        have hsame := howns.unique howns' heq.symm
        subst hsame
        exact hcode (hfeedcode.symm.trans hfeedcode')
  · intro code
    by_cases hcode : code = r.feed.feedcode
    · subst hcode
      have hqueue := h.queue
      split_ifs at hqueue with hlate
      · rw [hqueue.2]
        exact hown.nodup _
      · have hnodup := hown.addr_nodup hmsg href hlive r.feed.feedcode
        rw [← (hqueue.map FeedRef.addr).nodup_iff, List.map_append] at hnodup
        exact hnodup.of_append_left
    · rw [h.queueOf_other hcode]
      exact hown.nodup code

end Cases

/-- The object keeps its Statistics feed, if it has one, at the given address. -/
def Places (make : Nat → MyMessage) : Prop :=
  ∀ addr r, (make addr).ref? = some r → r.addr = addr

theorem Incoming.toMessage_places (incoming : Incoming) : Places incoming.toMessage := by
  intro addr r hr
  obtain ⟨message, feed⟩ := incoming
  cases feed with
  | statistics sf =>
      rw [toMessage_statistics_ref?] at hr
      cases hr
      rfl
  | price pf =>
      rw [toMessage_price_ref?] at hr
      cases hr

theorem Heap.alloc_get? (h : Heap) (make : Nat → MyMessage) (a : Nat) :
    (h.alloc make).2.get? a = if a = h.brk then some (make (h.brk + 1)) else h.get? a :=
  OrdMap.get?_insert _ _ _ _

theorem Heap.alloc_get?_new (h : Heap) (make : Nat → MyMessage) :
    (h.alloc make).2.get? h.brk = some (make (h.brk + 1)) := by
  rw [alloc_get?, if_pos rfl]

theorem Heap.WF.alloc {h : Heap} (hwf : h.WF) {make : Nat → MyMessage} (hmake : Places make) :
    (h.alloc make).2.WF := by
  have hnew : ∀ r, (make (h.brk + 1)).ref? = some r → r.addr = h.brk + 1 := hmake _
  have hbrk : (h.alloc make).2.brk = h.brk + 2 := rfl
  refine ⟨?_, ?_, ?_⟩
  · intro a msg hmsg
    rw [alloc_get?] at hmsg
    split_ifs at hmsg with ha
    · omega
    · have := hwf.below a msg hmsg
      omega
  · intro a msg r hmsg hr
    rw [alloc_get?] at hmsg
    split_ifs at hmsg with ha
    · cases hmsg
      have := hnew r hr
      omega
    · have := hwf.feed_below a msg r hmsg hr
      omega
  · intro a b ma mb ra rb ha hb hra hrb heq
    rw [alloc_get?] at ha hb
    split_ifs at ha hb with h1 h2 h2
    · rw [h1, h2]
    · cases ha
      have h3 := hnew ra hra
      have h4 := hwf.feed_below b mb rb hb hrb
      omega
    · cases hb
      have h3 := hnew rb hrb
      have h4 := hwf.feed_below a ma ra ha hra
      omega
    · exact hwf.feed_inj a b ma mb ra rb ha hb hra hrb heq

theorem ExecState.Owned.alloc {s : ExecState} (hown : s.Owned) {make : Nat → MyMessage}
    (hmake : Places make) : ExecState.Owned {s with heap := (s.heap.alloc make).2} := by
  refine ⟨hown.wf.alloc hmake, ?_, hown.nodup⟩
  intro code r hr
  obtain ⟨hcode, m, howns⟩ := hown.queued code r hr
  obtain ⟨msg, hmsg, href, hlive⟩ := howns.held
  refine ⟨hcode, m, howns.mapped, msg, ?_, href, hlive⟩
  have hne : m ≠ s.heap.brk := by
    have := hown.wf.below m msg hmsg
    omega
  change (s.heap.alloc make).2.get? m = some msg
  rw [Heap.alloc_get?, if_neg hne, hmsg]

theorem ExecState.Owned.clear {s : ExecState} (hown : s.Owned) :
    (s.setRes s.self.res.clear).Owned := by
  refine ⟨hown.wf, ?_, hown.nodup⟩
  intro code r hr
  obtain ⟨hcode, m, howns⟩ := hown.queued code r hr
  exact ⟨hcode, m, howns.mapped, howns.held⟩

theorem Heap.WF.empty : Heap.empty.WF := by
  refine ⟨?_, ?_, ?_⟩
  · intro a msg h
    cases h
  · intro a msg r h
    cases h
  · intro a b ma mb ra rb h
    cases h

end OLog
