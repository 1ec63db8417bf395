import OLog.Release

/-!
What one `exec` of a Statistics message does. The state of the feedcode, seen
without pointers, moves as its tracker does, and the alerts are the tracker's;
the contexts of other feedcodes stay. The arriving feed and the queued ones
are accounted for: each of them waits afterwards or is released, unless the
arriving feed is late, in which case it is neither.
-/

namespace OLog

open Lib DeficiencyProcessor

/-- A context without its pointers. -/
def Context.view (context : Context) : Tracker where
  waiting := (context.queue.toList.map FeedRef.feed : List StatisticsFeed)
  expectTimestamp := context.expectTimestamp
  preValue := context.preValue
  preVolume := context.preVolume

/-- The context that a feedcode's first feed creates. -/
def openedContext (sf : StatisticsFeed) : Context :=
  (Context.fresh {}).initialise sf

theorem openedContext_view (sf : StatisticsFeed) :
    (openedContext sf).view = Tracker.opened sf := rfl

namespace ExecState

def tracker (s : ExecState) (feedcode : String) : Option Tracker :=
  (s.contextMap.getContext feedcode).map Context.view

def queueOf (s : ExecState) (feedcode : String) : List FeedRef :=
  ((s.contextMap.getContext feedcode).map (fun c => c.queue.toList)).getD []

/-- The context in which a feed is received. -/
def contextFor (s : ExecState) (sf : StatisticsFeed) : Context :=
  (s.contextMap.getContext sf.feedcode).getD (openedContext sf)

/-- The feed comes after its tick has been passed. -/
def Late (s : ExecState) (sf : StatisticsFeed) : Prop :=
  sf.exchangeTimestamp < (s.contextFor sf).expectTimestamp

instance (s : ExecState) (sf : StatisticsFeed) : Decidable (s.Late sf) := by
  unfold Late
  infer_instance

theorem contextFor_view (s : ExecState) (sf : StatisticsFeed) :
    (s.contextFor sf).view = (s.tracker sf.feedcode).getD (Tracker.opened sf) := by
  unfold contextFor tracker
  cases s.contextMap.getContext sf.feedcode with
  | none => exact openedContext_view sf
  | some context => rfl

theorem contextFor_queue (s : ExecState) (sf : StatisticsFeed) :
    (s.contextFor sf).queue.toList = s.queueOf sf.feedcode := by
  unfold contextFor queueOf
  cases s.contextMap.getContext sf.feedcode <;> rfl

end ExecState

/-- Every alert but the monotonicity one sets the result's code. -/
def Alert.warns : Alert → Bool
  | .monotonicity .. => false
  | _ => true

def codeAfter (code : Status) (alerts : List Alert) : Status :=
  if alerts.any Alert.warns then .warn else code

theorem codeAfter_append (code : Status) (first second : List Alert) :
    codeAfter code (first ++ second) = codeAfter (codeAfter code first) second := by
  unfold codeAfter
  rw [List.any_append]
  cases first.any Alert.warns <;> cases second.any Alert.warns <;> rfl

theorem timesOf_push (context : Context) (r : FeedRef) :
    timesOf (context.queue.push r).toList =
      timestamps (r.feed ::ₘ context.view.waiting) := by
  ext t
  simp only [mem_timesOf, mem_timestamps, MinQueue.mem_push, Context.view, Multiset.mem_cons,
    Multiset.mem_coe, List.mem_map]
  constructor
  · rintro ⟨r', rfl | hr', rfl⟩
    · exact ⟨r'.feed, Or.inl rfl, rfl⟩
    · exact ⟨r'.feed, Or.inr ⟨r', hr', rfl⟩, rfl⟩
  · rintro ⟨f, rfl | ⟨r', hr', rfl⟩, rfl⟩
    · exact ⟨r, Or.inl rfl, rfl⟩
    · exact ⟨r', Or.inr hr', rfl⟩

theorem drainCount_push (context : Context) (r : FeedRef) :
    drainCount (context.queue.push r).toList context.expectTimestamp =
      context.view.run r.feed := by
  unfold drainCount Tracker.run
  rw [timesOf_push]
  rfl

theorem drainGap_push (context : Context) (r : FeedRef) :
    drainGap (context.queue.push r).toList context.expectTimestamp =
      context.view.gap r.feed := by
  unfold drainGap Tracker.gap
  rw [drainCount_push]
  rfl

theorem left_push (context : Context) (r : FeedRef) :
    ((left (context.queue.push r).toList (context.view.gap r.feed)).map FeedRef.feed :
      Multiset StatisticsFeed) = context.view.kept r.feed := by
  have hperm : ((context.queue.push r).toList.map FeedRef.feed).Perm
      (r.feed :: context.queue.toList.map FeedRef.feed) :=
    (context.queue.push_perm r).map FeedRef.feed
  have hfilter := hperm.filter
    (fun f => decide (context.view.gap r.feed < f.exchangeTimestamp))
  rw [List.filter_map] at hfilter
  exact Quot.sound hfilter

/-- The context that the loop leaves for an early feed. -/
def drainedContext (context : Context) (r : FeedRef) : Context :=
  let l := (context.queue.push r).toList
  let gap := drainGap l context.expectTimestamp
  {acceptPair context r.feed (drainCount l context.expectTimestamp) with
    queue := ⟨left l gap, left_sorted (context.queue.push r).sorted gap⟩
    expectTimestamp := gap}

theorem drainedContext_view (context : Context) (r : FeedRef) :
    (drainedContext context r).view = context.view.drained r.feed := by
  have hwaiting := left_push context r
  have hpair : (acceptPair context r.feed (context.view.run r.feed)).preValue =
        (context.view.accept r.feed (context.view.run r.feed)).preValue ∧
      (acceptPair context r.feed (context.view.run r.feed)).preVolume =
        (context.view.accept r.feed (context.view.run r.feed)).preVolume := by
    have hiff : turnoverBelow r.feed context ↔ Tracker.Below r.feed context.view := Iff.rfl
    unfold acceptPair Tracker.accept
    simp only [hiff]
    split_ifs <;> exact ⟨rfl, rfl⟩
  simp only [Context.view, drainedContext, Tracker.drained] at hwaiting ⊢
  simp only [drainGap_push, drainCount_push]
  simp only [Context.view] at hpair ⊢
  rw [hpair.1, hpair.2, hwaiting]

theorem loopAlerts_view (context : Context) (sf : StatisticsFeed) (n : Nat) :
    loopAlerts context sf n = context.view.continuityAlerts sf n := rfl

theorem drainedContext_size (context : Context) (r : FeedRef) :
    (drainedContext context r).queue.size = (context.view.kept r.feed).card := by
  rw [← left_push]
  simp [drainedContext, MinQueue.size, drainGap_push]

/-- What `exec` did with a Statistics message `m` that carries `r`, where
`released` are the feeds it released. -/
structure Executed (s : ExecState) (m : Nat) (r : FeedRef) (released : List FeedRef)
    (s' : ExecState) : Prop where
  tracker : s'.tracker r.feed.feedcode =
    some (Tracker.exec (s.tracker r.feed.feedcode) r.feed).1
  others : ∀ code, code ≠ r.feed.feedcode →
    s'.contextMap.getContext code = s.contextMap.getContext code
  json : s'.self.res.json = (Tracker.exec (s.tracker r.feed.feedcode) r.feed).2
  code : s'.self.res.code =
    codeAfter s.self.res.code (Tracker.exec (s.tracker r.feed.feedcode) r.feed).2
  brk : s'.heap.brk = s.heap.brk
  heap : ∀ a, s'.heap.get? a = (s.heap.get? a).map
    (fun msg => settle released (if a = m then {msg with live := 1} else msg))
  sfToM : ∀ x, s'.self.sfToM.get? x =
    if x ∈ released.map FeedRef.addr then none
    else if x = r.addr then some m else s.self.sfToM.get? x
  queue : if s.Late r.feed then
      released = [] ∧ s'.queueOf r.feed.feedcode = s.queueOf r.feed.feedcode
    else (s'.queueOf r.feed.feedcode ++ released).Perm (r :: s.queueOf r.feed.feedcode)

/-- The state in which a feed is received: its message is live and mapped, an
invalid turnover is recorded, and the feedcode has a context. -/
structure Ready (s : ExecState) (m : Nat) (msg : MyMessage) (r : FeedRef)
    (p : ExecState) : Prop where
  heap : p.heap = s.heap.store m {msg with live := msg.live + 1}
  sfToM : p.self.sfToM = s.self.sfToM.insert r.addr m
  json : p.self.res.json = Tracker.invalidAlerts r.feed
  code : p.self.res.code = codeAfter s.self.res.code (Tracker.invalidAlerts r.feed)
  context : ∀ code, p.contextMap.getContext code =
    if code = r.feed.feedcode then some (s.contextFor r.feed)
    else s.contextMap.getContext code

theorem ref?_eq_some {msg : MyMessage} {r : FeedRef} (h : msg.ref? = some r) :
    msg.type = .statistics ∧ msg.feed = .object r.addr (.statistics r.feed) := by
  unfold MyMessage.ref? at h
  split at h
  · rename_i addr sf htype hfeed
    cases h
    exact ⟨htype, hfeed⟩
  · cases h

theorem exec_of_ref {s : ExecState} {m : Nat} {msg : MyMessage} {r : FeedRef}
    (hmsg : s.heap.get? m = some msg) (href : msg.ref? = some r) :
    exec s m = execStatistics (s.setRes s.self.res.clear) m r := by
  obtain ⟨htype, hfeed⟩ := ref?_eq_some href
  have hderef : (s.setRes s.self.res.clear).heap.deref m = .ok msg := Heap.deref_of_get? hmsg
  rw [exec_eq]
  simp only [hderef, ok_bind, htype, hfeed]

theorem exec_ready {s : ExecState} {m : Nat} {msg : MyMessage} {r : FeedRef}
    (hmsg : s.heap.get? m = some msg) (href : msg.ref? = some r) :
    ∃ p, exec s m = receive p (s.contextFor r.feed) r ∧ Ready s m msg r p := by
  have hlive : (s.setRes s.self.res.clear).heap.live m = _ := Heap.live_of_get? hmsg
  rw [exec_of_ref hmsg href]
  rw [execStatistics_eq, enter_eq]
  simp only [hlive, ok_bind]
  -- the invalid-turnover branch fills the result, independently of the context
  by_cases hinvalid : r.feed.turnoverValue ≤ 0 ∨ r.feed.turnoverVolume ≤ 0
  all_goals
    cases hcontext : s.contextMap.getContext r.feed.feedcode with
    | some context =>
        have hfor : s.contextFor r.feed = context := by
          simp [ExecState.contextFor, hcontext]
        simp only [hinvalid, if_true, if_false, ContextMap.has, ExecState.setRes,
          ExecState.warn, hcontext, Option.isSome_some, hfor]
        refine ⟨_, rfl, rfl, rfl, ?_, ?_, ?_⟩
        · simp [ProRes.warn, ProRes.clear, Tracker.invalidAlerts, hinvalid]
        · simp [ProRes.warn, ProRes.clear, Tracker.invalidAlerts, hinvalid, codeAfter,
            Alert.warns]
        · intro code
          by_cases hcode : code = r.feed.feedcode
          · simp [hcode, hcontext, hfor]
          · simp [hcode]
    | none =>
        have hfor : s.contextFor r.feed = openedContext r.feed := by
          simp [ExecState.contextFor, hcontext]
        simp only [hinvalid, if_true, if_false, ContextMap.has, ExecState.setRes,
          ExecState.warn, hcontext, Option.isSome_none, Bool.false_eq_true, createContext,
          ExecState.putContext, ContextMap.create, ContextMap.getContext_put_self, hfor]
        refine ⟨_, rfl, rfl, rfl, ?_, ?_, ?_⟩
        · simp [ProRes.warn, ProRes.clear, Tracker.invalidAlerts, hinvalid]
        · simp [ProRes.warn, ProRes.clear, Tracker.invalidAlerts, hinvalid, codeAfter,
            Alert.warns]
        · intro code
          by_cases hcode : code = r.feed.feedcode
          · simp [hcode, hfor, openedContext]
          · simp [hcode, ContextMap.getContext_put]

theorem Ready.heap_get? {s p : ExecState} {m : Nat} {msg : MyMessage} {r : FeedRef}
    (h : Ready s m msg r p) (hmsg : s.heap.get? m = some msg) (hlive : msg.live = 0)
    (a : Nat) :
    p.heap.get? a = (s.heap.get? a).map (fun x => if a = m then {x with live := 1} else x) := by
  rw [h.heap, Heap.get?_store]
  by_cases ha : a = m
  · subst ha
    simp [hmsg, hlive]
  · simp [ha]

theorem Ready.heap_wf {s p : ExecState} {m : Nat} {msg : MyMessage} {r : FeedRef}
    (h : Ready s m msg r p) (hmsg : s.heap.get? m = some msg) (hlive : msg.live = 0)
    (hwf : s.heap.WF) : p.heap.WF := by
  have hbrk : p.heap.brk = s.heap.brk := by
    rw [h.heap]
    rfl
  refine hwf.of_map hbrk _ (h.heap_get? hmsg hlive) ?_
  intro a x
  split_ifs <;> rfl

/-- The joint invariant of queues, map, live counts and message store. -/
structure ExecState.Owned (s : ExecState) : Prop where
  wf : s.heap.WF
  queued : ∀ code r, r ∈ s.queueOf code → r.feed.feedcode = code ∧ ∃ m, s.Owns m r
  nodup : ∀ code, ((s.queueOf code).map FeedRef.addr).Nodup

/-- A message that is not live carries no queued feed. -/
theorem ExecState.Owned.fresh_feed {s : ExecState} (h : s.Owned) {m : Nat} {msg : MyMessage}
    {r : FeedRef} (hmsg : s.heap.get? m = some msg) (href : msg.ref? = some r)
    (hlive : msg.live = 0) {code : String} {r' : FeedRef} (hr' : r' ∈ s.queueOf code) :
    r'.addr ≠ r.addr := by
  obtain ⟨_, m', hown⟩ := h.queued code r' hr'
  obtain ⟨msg', hmsg', href', hlive'⟩ := hown.held
  intro heq
  have hm : m' = m := h.wf.feed_inj m' m msg' msg r' r hmsg' hmsg href' href heq
  subst hm
  rw [hmsg'] at hmsg
  cases hmsg
  omega

/-- The addresses at hand are distinct. -/
theorem ExecState.Owned.addr_nodup {s : ExecState} (hown : s.Owned) {m : Nat}
    {msg : MyMessage} {r : FeedRef} (hmsg : s.heap.get? m = some msg)
    (href : msg.ref? = some r) (hlive : msg.live = 0) (code : String) :
    ((r :: s.queueOf code).map FeedRef.addr).Nodup := by
  rw [List.map_cons, List.nodup_cons]
  refine ⟨?_, hown.nodup _⟩
  intro hmem
  obtain ⟨r', hr', heq⟩ := List.mem_map.mp hmem
  exact hown.fresh_feed hmsg href hlive hr' heq

theorem Ready.owns_self {s p : ExecState} {m : Nat} {msg : MyMessage} {r : FeedRef}
    (h : Ready s m msg r p) (href : msg.ref? = some r) (hlive : msg.live = 0) :
    p.Owns m r := by
  refine ⟨by rw [h.sfToM, OrdMap.get?_insert_self], {msg with live := msg.live + 1}, ?_, href, ?_⟩
  · rw [h.heap, Heap.get?_store, if_pos rfl]
  · simp [hlive]

theorem Ready.owns_queued {s p : ExecState} {m m' : Nat} {msg : MyMessage} {r r' : FeedRef}
    (h : Ready s m msg r p) (hmsg : s.heap.get? m = some msg) (hlive : msg.live = 0)
    (howns : s.Owns m' r') (haddr : r'.addr ≠ r.addr) : p.Owns m' r' := by
  obtain ⟨msg', hmsg', href', hlive'⟩ := howns.held
  have hne : m' ≠ m := by
    intro heq
    subst heq
    rw [hmsg'] at hmsg
    cases hmsg
    omega
  refine ⟨?_, msg', ?_, href', hlive'⟩
  · rw [h.sfToM, OrdMap.get?_insert_of_ne _ _ haddr, howns.mapped]
  · rw [h.heap, Heap.get?_store, if_neg hne, hmsg']

/-- What `exec` needs in order to release what the feed `r` lets go: distinct
feeds at hand, and an owner for each waiting one up to the gap. -/
structure ExecState.Releasable (s : ExecState) (r : FeedRef) : Prop where
  wf : s.heap.WF
  nodup : ((r :: s.queueOf r.feed.feedcode).map FeedRef.addr).Nodup
  owned : (s.contextFor r.feed).expectTimestamp < r.exchangeTimestamp →
    ∀ r' ∈ s.queueOf r.feed.feedcode, r'.exchangeTimestamp ≤ (s.contextFor r.feed).view.gap r.feed →
      ∃ m', s.Owns m' r'

theorem ExecState.Owned.releasable {s : ExecState} (hown : s.Owned) {m : Nat} {msg : MyMessage}
    {r : FeedRef} (hmsg : s.heap.get? m = some msg) (href : msg.ref? = some r)
    (hlive : msg.live = 0) : s.Releasable r :=
  ⟨hown.wf, hown.addr_nodup hmsg href hlive _, fun _ r' hr' _ => (hown.queued _ r' hr').2⟩

/-- Fields of the outcome that only depend on which feeds were released. -/
theorem Ready.settled {s p t : ExecState} {m : Nat} {msg : MyMessage} {r : FeedRef}
    {l : List FeedRef} (h : Ready s m msg r p) (hmsg : s.heap.get? m = some msg)
    (hlive : msg.live = 0) (hset : Settled p l t) :
    t.heap.brk = s.heap.brk ∧
      (∀ a, t.heap.get? a = (s.heap.get? a).map
        (fun x => settle l (if a = m then {x with live := 1} else x))) ∧
      ∀ x, t.self.sfToM.get? x =
        if x ∈ l.map FeedRef.addr then none
        else if x = r.addr then some m else s.self.sfToM.get? x := by
  refine ⟨?_, ?_, ?_⟩
  · rw [hset.brk, h.heap]
    rfl
  · intro a
    rw [hset.heap, h.heap_get? hmsg hlive, Option.map_map]
    rfl
  · intro x
    rw [hset.sfToM, h.sfToM, OrdMap.get?_insert]

end OLog
