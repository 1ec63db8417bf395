import OLog.Ownership

/-!
Live counts. `exec` counts its message live and gives the count back when it
releases the feed, on time or from the queue. The exit of a late feed does
neither that nor remove the feed from `sf_to_m`, so the counts are exact in a
run exactly if none of its messages is late.
-/

namespace OLog

open Lib DeficiencyProcessor

namespace EventLoop

/-- The message's feed is in the queue of its feedcode. -/
def Waits (l : EventLoop) (msg : MyMessage) : Prop :=
  ∃ r, msg.ref? = some r ∧ r ∈ l.queueOf r.feed.feedcode

/-- A message is live, with count one, if its feed waits, and free otherwise;
and `sf_to_m` holds exactly the waiting feeds. -/
structure Exact (l : EventLoop) (d : DeficiencyProcessor) : Prop where
  waiting : ∀ m msg, l.heap.get? m = some msg → l.Waits msg → msg.live = 1
  others : ∀ m msg, l.heap.get? m = some msg → ¬ l.Waits msg → msg.live = 0
  mapped : ∀ x, (∃ m, d.sfToM.get? x = some m) ↔
    ∃ code, ∃ r ∈ l.queueOf code, r.addr = x

/-- The feed comes after its tick has been passed. -/
def Late (l : EventLoop) (sf : StatisticsFeed) : Prop :=
  ∃ context ∈ l.contextMap.getContext sf.feedcode,
    sf.exchangeTimestamp < context.expectTimestamp

theorem late_iff (l : EventLoop) (d : DeficiencyProcessor) (sf : StatisticsFeed) :
    (l.execState d).Late sf ↔ l.Late sf := by
  unfold ExecState.Late Late ExecState.contextFor
  change sf.exchangeTimestamp < ((l.contextMap.getContext sf.feedcode).getD
    (openedContext sf)).expectTimestamp ↔ _
  cases l.contextMap.getContext sf.feedcode with
  | none => simp [openedContext, Context.initialise]
  | some context => simp

/-- Ownership gives the first part and half of the last. -/
theorem Inv.waiting_live {l : EventLoop} {d : DeficiencyProcessor} (h : l.Inv d) {m : Nat}
    {msg : MyMessage} (hmsg : l.heap.get? m = some msg) (hwaits : l.Waits msg) :
    msg.live = 1 := by
  obtain ⟨r, href, hr⟩ := hwaits
  obtain ⟨m', msg', hheld⟩ := h.heldBy hr
  have hm : m = m' :=
    h.owned.wf.feed_inj m m' msg msg' r r hmsg hheld.stored href hheld.carries rfl
  subst hm
  rw [hheld.stored] at hmsg
  cases hmsg
  exact hheld.live

theorem Inv.exact {l : EventLoop} {d : DeficiencyProcessor} (h : l.Inv d)
    (hothers : ∀ m msg, l.heap.get? m = some msg → ¬ l.Waits msg → msg.live = 0)
    (hmapped : ∀ x, (∃ m, d.sfToM.get? x = some m) → ∃ code, ∃ r ∈ l.queueOf code, r.addr = x) :
    l.Exact d := by
  refine ⟨fun m msg hmsg hwaits => h.waiting_live hmsg hwaits, hothers, ?_⟩
  intro x
  refine ⟨hmapped x, ?_⟩
  rintro ⟨code, r, hr, rfl⟩
  obtain ⟨m, _, hheld⟩ := h.heldBy hr
  exact ⟨m, hheld.mapped⟩

section Step

variable {l l' : EventLoop} {d : DeficiencyProcessor}

theorem StoredOn.exact {parts : List Int} (h : StoredOn l parts l') (hinv : l'.Inv d)
    (hexact : l.Exact d) : l'.Exact d := by
  have hqueue : ∀ code, l'.queueOf code = l.queueOf code := by
    intro code
    unfold queueOf
    rw [h.frame.1]
  apply hinv.exact
  · intro m msg hmsg hnot
    apply hexact.others m msg (h.sub hmsg).1
    rintro ⟨r, href, hr⟩
    exact hnot ⟨r, href, by rw [hqueue]; exact hr⟩
  · intro x hx
    obtain ⟨code, r, hr, haddr⟩ := (hexact.mapped x).mp hx
    exact ⟨code, r, by rw [hqueue]; exact hr, haddr⟩

/-- The queues that an iteration leaves. -/
theorem Iterated.queueOf_eq {incoming : Incoming} {t : ExecState}
    (h : Iterated l d incoming t l') (code : String) : l'.queueOf code = t.queueOf code := by
  unfold queueOf ExecState.queueOf
  rw [h.contextMap]

theorem Iterated.price_exact {message : KafkaMessage} {pf : PriceFeed} {t : ExecState}
    (h : Iterated l d ⟨message, .price pf⟩ t l') (hinv : l.Inv d) (hexact : l.Exact d) :
    l'.Exact t.self := by
  have hexec := exec_price
    (s := (l.consume (Incoming.record ⟨message, .price pf⟩)).execState d)
    (l.consume_incoming ⟨message, .price pf⟩) rfl
  have ht := h.exec
  rw [hexec] at ht
  cases ht
  have hqueue : ∀ code, l'.queueOf code = l.queueOf code := fun code => h.queueOf_eq code
  apply (h.inv hinv).exact
  · intro m msg hmsg hnot
    have hheap : l'.heap.get? m = (l.consume (Incoming.record ⟨message, .price pf⟩)).heap.get? m :=
      congrArg (fun heap : Heap => heap.get? m) h.heap
    rw [hheap, consume_heap] at hmsg
    split_ifs at hmsg
    · cases hmsg
      rfl
    · apply hexact.others m msg hmsg
      rintro ⟨r, href, hr⟩
      exact hnot ⟨r, href, by rw [hqueue]; exact hr⟩
  · intro x hx
    obtain ⟨code, r, hr, haddr⟩ := (hexact.mapped x).mp hx
    exact ⟨code, r, by rw [hqueue]; exact hr, haddr⟩

/-- The spec of `exec` for a Statistics message of an iteration. -/
theorem Iterated.executed {message : KafkaMessage} {sf : StatisticsFeed} {t : ExecState}
    (h : Iterated l d ⟨message, .statistics sf⟩ t l') (hinv : l.Inv d) :
    ∃ released, Executed ((l.consume (Incoming.record ⟨message, .statistics sf⟩)).execState d)
      l.heap.brk ⟨l.heap.brk + 1, sf⟩ released t := by
  have hfirst := consume_inv hinv (Incoming.record ⟨message, .statistics sf⟩)
  obtain ⟨t', released, hexec, hdone⟩ := exec_executed hfirst.owned
    (l.consume_incoming ⟨message, .statistics sf⟩)
    (toMessage_statistics_ref? message sf (l.heap.brk + 1)) rfl
  rw [h.exec] at hexec
  cases hexec
  exact ⟨released, hdone⟩

theorem Iterated.statistics_exact {message : KafkaMessage} {sf : StatisticsFeed}
    {t : ExecState} (h : Iterated l d ⟨message, .statistics sf⟩ t l') (hinv : l.Inv d)
    (hexact : l.Exact d) (hnot : ¬ l.Late sf) : l'.Exact t.self := by
  obtain ⟨released, hdone⟩ := h.executed hinv
  let r : FeedRef := ⟨l.heap.brk + 1, sf⟩
  have hlate : ¬ ((l.consume (Incoming.record ⟨message, .statistics sf⟩)).execState d).Late sf := by
    rw [late_iff]
    exact hnot
  have hstays : ∀ code r', r' ∈ l.queueOf code ∨ r' = r ∧ code = sf.feedcode →
      r' ∉ released → r' ∈ l'.queueOf code := by
    intro code r' hr' hkept
    rw [h.queueOf_eq]
    exact hdone.stays hlate hr' hkept
  apply (h.inv hinv).exact
  · intro a msg' hmsg' hwaits
    rw [h.heap, hdone.heap] at hmsg'
    obtain ⟨msg, hmsg, rfl⟩ := Option.map_eq_some_iff.mp hmsg'
    change (l.consume _).heap.get? a = some msg at hmsg
    rw [consume_heap] at hmsg
    split_ifs at hmsg hwaits ⊢ with ha
    · -- the arriving message: it waits or was released
      cases hmsg
      have href : MyMessage.ref? {Record.toMessage (Incoming.record ⟨message, .statistics sf⟩)
          (l.heap.brk + 1) with live := 1} = some r := rfl
      by_cases hr : r ∈ released
      · rw [settle_of_mem href hr]
      · exact absurd ⟨r, by rw [settle_ref?]; exact href,
          hstays sf.feedcode r (Or.inr ⟨rfl, rfl⟩) hr⟩ hwaits
    · -- an older one: if it waited, it still does or was released
      by_cases hgone : msg.ref? ∈ released.map some
      · obtain ⟨r', hr', href⟩ := List.mem_map.mp hgone
        rw [settle_of_mem href.symm hr']
      · have hsame : settle released msg = msg := if_neg hgone
        rw [hsame] at hwaits ⊢
        apply hexact.others a msg hmsg
        rintro ⟨r', href, hr'⟩
        have hkept : r' ∉ released := by
          intro hmem
          exact hgone (by rw [href]; exact List.mem_map_of_mem hmem)
        exact hwaits ⟨r', href, hstays _ r' (Or.inl hr') hkept⟩
  · intro x hx
    obtain ⟨m, hm⟩ := hx
    rw [hdone.sfToM] at hm
    split_ifs at hm with hgone hself
    · refine ⟨sf.feedcode, r, hstays sf.feedcode r (Or.inr ⟨rfl, rfl⟩) ?_, hself.symm⟩
      intro hmem
      exact hgone (hself ▸ List.mem_map_of_mem hmem)
    · obtain ⟨code, r', hr', rfl⟩ := (hexact.mapped x).mp ⟨m, hm⟩
      refine ⟨code, r', hstays code r' (Or.inl hr') ?_, rfl⟩
      intro hmem
      exact hgone (List.mem_map_of_mem hmem)

/-- The message of a late feed keeps its live count although it does not wait. -/
theorem Iterated.late_not_exact {message : KafkaMessage} {sf : StatisticsFeed}
    {t : ExecState} (h : Iterated l d ⟨message, .statistics sf⟩ t l') (hinv : l.Inv d)
    (hlate : l.Late sf) : ¬ l'.Exact t.self := by
  obtain ⟨released, hdone⟩ := h.executed hinv
  let first := l.consume (Incoming.record ⟨message, .statistics sf⟩)
  let r : FeedRef := ⟨l.heap.brk + 1, sf⟩
  let msg : MyMessage := Incoming.toMessage ⟨message, .statistics sf⟩ (l.heap.brk + 1)
  have hqueue := hdone.queue
  rw [if_pos ((late_iff first d sf).mpr hlate)] at hqueue
  obtain ⟨hreleased, hsame⟩ := hqueue
  have hmsg : l'.heap.get? l.heap.brk = some {msg with live := 1} := by
    have hfirst : (first.execState d).heap.get? l.heap.brk = some msg :=
      l.consume_incoming ⟨message, .statistics sf⟩
    rw [h.heap, hdone.heap, hfirst, hreleased]
    simp
  have hnotWaits : ¬ l'.Waits {msg with live := 1} := by
    rintro ⟨r', href, hr'⟩
    cases href
    change r ∈ l'.queueOf sf.feedcode at hr'
    rw [h.queueOf_eq, hsame] at hr'
    -- a feed that waited before lies below the break
    obtain ⟨m, msg', hheld⟩ := hinv.heldBy (show r ∈ l.queueOf sf.feedcode from hr')
    have hbelow := hinv.owned.wf.feed_below m msg' r hheld.stored hheld.carries
    change l.heap.brk + 1 < l.heap.brk at hbelow
    omega
  intro hexact
  have hzero := hexact.others _ _ hmsg hnotWaits
  cases hzero

end Step

/-- The loop's DeficiencyProcessor has exact live counts. -/
def Counted (l : EventLoop) : Prop :=
  ∃ d, l.processors.filterMap Processor.deficiency? = [d] ∧ l.Exact d

/-- The event is not an iteration over a late feed. -/
def NotLate (l : EventLoop) : Event → Prop
  | .iterate ⟨_, .statistics sf⟩ => ¬ l.Late sf
  | _ => True

instance (l : EventLoop) (sf : StatisticsFeed) : Decidable (l.Late sf) := by
  unfold Late
  infer_instance

instance (l : EventLoop) (event : Event) : Decidable (l.NotLate event) := by
  unfold NotLate
  split <;> infer_instance

theorem Idle.counted_iff {l : EventLoop} {d : DeficiencyProcessor} (h : l.Idle d) :
    l.Counted ↔ l.Exact d := by
  constructor
  · rintro ⟨d', honly, hexact⟩
    rw [h.only] at honly
    cases honly
    exact hexact
  · intro hexact
    exact ⟨d, h.only, hexact⟩

/-- One event, from exact counts. -/
theorem apply_counted_iff {l l' : EventLoop} {d : DeficiencyProcessor} (h : l.Idle d)
    (hcounted : l.Counted) {event : Event} (happly : l.apply event = .ok l') :
    l'.Counted ↔ l.NotLate event := by
  have hexact := h.counted_iff.mp hcounted
  cases event with
  | storeOffset =>
      obtain ⟨hstored, hinv⟩ := storeOffset_inv h.toInv happly
      exact iff_of_true ⟨d, hinv.only, hstored.exact hinv hexact⟩ trivial
  | iterate incoming =>
      obtain ⟨message, feed⟩ := incoming
      obtain ⟨after, t, hafter, hit⟩ := iterate_iterated h.toInv ⟨message, feed⟩
      change l.iterate _ = .ok l' at happly
      rw [hafter] at happly
      cases happly
      have hidle : l'.Idle t.self := hit.idle h
      rw [hidle.counted_iff]
      cases feed with
      | price pf => exact iff_of_true (hit.price_exact h.toInv hexact) trivial
      | statistics sf =>
          constructor
          · intro hafterExact hlate
            exact hit.late_not_exact h.toInv hlate hafterExact
          · intro hnot
            exact hit.statistics_exact h.toInv hexact hnot

/-- Nothing waits and the counts are exact: everything consumed is committed. -/
theorem Idle.storeOffset_commits_all {l : EventLoop} {d : DeficiencyProcessor} (h : l.Idle d)
    (hexact : l.Exact d) (hempty : ∀ code, l.queueOf code = []) :
    ∃ l', l.storeOffset = .ok l' ∧ ∀ p, l'.fifo p = [] ∧
      ∀ m, (l.fifo p).getLast? = some m →
        ∃ msg, l.heap.get? m = some msg ∧ msg.message ∈ l'.commits := by
  obtain ⟨l', hstore⟩ := h.built.storeOffset_ok h.filed
  obtain ⟨hstored, _⟩ := storeOffset_inv h.toInv hstore
  have hfree : ∀ p, ∀ m ∈ l.fifo p, freeAt l.heap m = true := by
    intro p m hm
    obtain ⟨msg, hmsg, _⟩ := h.filed.stored p m hm
    have hnot : ¬ l.Waits msg := by
      rintro ⟨r, _, hr⟩
      rw [hempty] at hr
      cases hr
    simp [freeAt, hmsg, MyMessage.free, hexact.others m msg hmsg hnot]
  have hfreed : ∀ p, l.freed p = l.fifo p := fun p => List.takeWhile_eq_self_iff.mpr (hfree p)
  have hheld : ∀ p, l.held p = [] := fun p => List.dropWhile_eq_nil_iff.mpr (hfree p)
  refine ⟨l', hstore, fun p => ⟨?_, ?_⟩⟩
  · rw [hstored.fifo_held]
    exact hheld p
  · intro m hm
    obtain ⟨msg, hmsg, _⟩ := h.filed.stored p m (List.mem_of_getLast? hm)
    exact ⟨msg, hmsg, hstored.commits_last (by rw [hfreed]; exact hm) hmsg⟩

/-- Over any run, live counts and `sf_to_m` are exact after every event exactly
if no iteration is over a late feed; and then, whenever no feed waits,
`store_offset` commits everything that was consumed. -/
theorem live_counts_exact_iff (processors : List Processor)
    (hone : processors.filterMap Processor.deficiency? = [DeficiencyProcessor.fresh])
    (events : List Event) :
    ∃ l, run processors events = .ok l ∧
      ((∀ n ≤ events.length, ∀ before, run processors (events.take n) = .ok before →
          before.Counted) ↔
        ∀ n (hn : n < events.length), ∀ before, run processors (events.take n) = .ok before →
          before.NotLate events[n]) ∧
      ((∀ n (hn : n < events.length), ∀ before, run processors (events.take n) = .ok before →
          before.NotLate events[n]) →
        (∀ code, l.queueOf code = []) →
        ∃ l', l.storeOffset = .ok l' ∧ ∀ p, l'.fifo p = [] ∧
          ∀ m, (l.fifo p).getLast? = some m →
            ∃ msg, l.heap.get? m = some msg ∧ msg.message ∈ l'.commits) := by
  obtain ⟨l, d, hrun, hidle⟩ := run_idle hone events
  have hiff := forall_take_iff
    (P := fun seen => ∀ before, run processors seen = .ok before → before.Counted)
    (C := fun seen event => ∀ before, run processors seen = .ok before →
      before.NotLate event) events
    (by
      intro before hbefore
      cases hbefore
      refine ⟨_, (start_inv hone).only, (start_inv hone).exact ?_ ?_⟩
      · intro m msg hmsg
        cases hmsg
      · rintro x ⟨m, hm⟩
        cases hm)
    (by
      intro seen event _ hseen
      obtain ⟨before, d', hbefore, hidle'⟩ := run_idle hone seen
      obtain ⟨after, d'', hafter, _⟩ := apply_idle hidle' event
      have hconcat : run processors (seen ++ [event]) = .ok after := by
        unfold run
        rw [foldlM_concat]
        change run processors seen >>= _ = _
        rw [hbefore]
        exact hafter
      have hstep := apply_counted_iff hidle' (hseen before hbefore) hafter
      simp only [hconcat, hbefore, Except.ok.injEq, forall_eq']
      exact hstep)
  refine ⟨l, hrun, hiff, ?_⟩
  intro hnotLate hempty
  have hcounted := hiff.mpr hnotLate events.length le_rfl l (by rw [List.take_length]; exact hrun)
  exact hidle.storeOffset_commits_all (hidle.counted_iff.mp hcounted) hempty

/-- Two feeds on time: nothing waits, and both messages are committed. -/
theorem live_counts_exact_on_time :
    ∃ l l', run mainProcessors (sampleEvents [0, 1]) = .ok l ∧
      l.storeOffset = .ok l' ∧ ∀ p, l'.fifo p = [] := by
  obtain ⟨l, hrun, _, hcommit⟩ := live_counts_exact_iff mainProcessors rfl (sampleEvents [0, 1])
  have hcheck : ∃ l, run mainProcessors (sampleEvents [0, 1]) = .ok l ∧ l.NoneWaiting := by
    apply exists_ok_of_check
    decide +kernel
  obtain ⟨_, hrun', hnone⟩ := hcheck
  rw [hrun] at hrun'
  cases hrun'
  have hall : ∀ n (hn : n < (sampleEvents [0, 1]).length),
      (run mainProcessors ((sampleEvents [0, 1]).take n)).toOption.all
        (fun before => before.NotLate (sampleEvents [0, 1])[n]) = true := by
    decide +kernel
  have hnotLate : ∀ n (hn : n < (sampleEvents [0, 1]).length), ∀ before,
      run mainProcessors ((sampleEvents [0, 1]).take n) = .ok before →
        before.NotLate (sampleEvents [0, 1])[n] := by
    intro n hn before hbefore
    have hone := hall n hn
    rw [hbefore] at hone
    exact of_decide_eq_true hone
  obtain ⟨l', hstore, hempty⟩ := hcommit hnotLate hnone.queueOf
  exact ⟨l, l', hrun, hstore, fun p => (hempty p).1⟩

/-- Tick 0 comes after tick 1: nothing waits, but the late message stays live,
and `store_offset` does not get past it. -/
theorem late_message_stays_live :
    ∃ l, run mainProcessors (sampleEvents [1, 0]) = .ok l ∧
      (∀ code, l.queueOf code = []) ∧ ¬ l.Counted ∧
      l.storeOffset.toOption.map (fun l' => l'.fifo 0) = some [2] := by
  have hcheck : ∃ l, run mainProcessors (sampleEvents [1, 0]) = .ok l ∧
      (l.NoneWaiting ∧ (l.heap.get? 2).map MyMessage.live = some 1 ∧
        l.storeOffset.toOption.map (fun l' => l'.fifo 0) = some [2]) := by
    apply exists_ok_of_check
    decide +kernel
  obtain ⟨l, hrun, hnone, hlive, hfifo⟩ := hcheck
  obtain ⟨msg, hmsg, hone⟩ := Option.map_eq_some_iff.mp hlive
  refine ⟨l, hrun, hnone.queueOf, ?_, hfifo⟩
  rintro ⟨d, _, hexact⟩
  have hzero := hexact.others 2 msg hmsg (by
    rintro ⟨r, _, hr⟩
    rw [hnone.queueOf] at hr
    cases hr)
  omega

end EventLoop

end OLog
