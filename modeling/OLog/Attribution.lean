import OLog.Instrumented
import OLog.Session

/-!
What each alert is about. `exec` is run with a report for every alert it
records: the arriving feed for an invalid turnover and for a delay, the top of
the queue for the continuity check, the tick that is given up for a miss. The
alerts of the reports are the recorded ones.
-/

namespace OLog

open Lib Traced

/-- The alert carries the feedcode and the exchange timestamp of its subject, and
for the continuity check also the turnover. -/
def Alert.Names : Alert → Subject → Prop
  | .invalidTurnover feedcode timestamp _ _, .feed sf =>
      feedcode = sf.feedcode ∧ timestamp = sf.exchangeTimestamp
  | .delay feedcode timestamp _, .feed sf =>
      feedcode = sf.feedcode ∧ timestamp = sf.exchangeTimestamp
  | .monotonicity feedcode timestamp turnoverVolume turnoverValue, .feed sf =>
      feedcode = sf.feedcode ∧ timestamp = sf.exchangeTimestamp ∧
        turnoverVolume = sf.turnoverVolume ∧ turnoverValue = sf.turnoverValue
  | .miss feedcode timestamp, .tick feedcode' timestamp' =>
      feedcode = feedcode' ∧ timestamp = timestamp'
  | _, _ => False

def Report.Named (report : Report) : Prop :=
  ∀ subject ∈ report.subjects, report.alert.Names subject

namespace Attributed

/-- The reports. -/
abbrev reporting : Probe (Traced Report Fault) := Probe.traced (fun _ => []) (fun r => [r]) id

theorem effect_bind {α : Type} (e : Effect) (f : Unit → Traced Report Fault α) :
    (reporting.effect e >>= f) = f () := rfl

theorem compute_bind {α : Type} (value : Int) (f : Int → Traced Report Fault α) :
    (reporting.compute value >>= f) = f value := rfl

theorem releaseTop_bind {α : Type} {top : FeedRef} {s t : ExecState}
    (h : s.release top.addr = .ok t) (f : ExecState → Traced Report Fault α) :
    (reporting.releaseTop top s >>= f) = f t := by
  have hrelease : reporting.releaseTop top s = pure t := by
    simp only [Probe.releaseTop, Probe.traced_lift, h, lift_ok_bind, effect_bind]
  rw [hrelease, Traced.pure_bind]

def process (s : Session) (incoming : Incoming) : Traced Report Fault Session := do
  let (m, heap) := s.state.heap.alloc incoming.toMessage
  let state ← reporting.exec {s.state with heap := heap} m
  pure ⟨state, s.log ++ [(incoming, state.self.res.json)]⟩

def run (messages : List Incoming) : Traced Report Fault Session :=
  messages.foldlM process Session.start

theorem process_result (s : Session) (incoming : Incoming) :
    (process s incoming).result = s.process incoming := by
  simp only [process, Session.process, result_bind, Probe.exec_result, result_pure]
  rfl

theorem run_result (messages : List Incoming) :
    (run messages).result = Session.run messages := by
  unfold run Session.run
  rw [result_foldlM]
  simp only [process_result]

/-- What the continuity check prints for `sf` is also true of `r`. -/
def Agrees (sf : StatisticsFeed) (r : FeedRef) : Prop :=
  sf.timestamp = r.exchangeTimestamp ∧ sf.turnoverVolume = r.feed.turnoverVolume ∧
    sf.turnoverValue = r.feed.turnoverValue

/-- Of the feeds only those at the expected tick are accepted, and each of them
is as the arriving feed says. -/
def Alone (sf : StatisticsFeed) (waiting : List FeedRef) (et : Int) : Prop :=
  ∀ r ∈ waiting, r.exchangeTimestamp = et →
    Agrees sf r ∧ ∀ r' ∈ waiting, r'.exchangeTimestamp ≠ et + interval

def continuityReport (sf : FeedRef) (tops : List FeedRef) : Report :=
  ⟨tops.map (fun top => .feed top.feed), Tracker.monotonicityAlert sf.feed⟩

theorem continuityReport_named_iff {sf : FeedRef} {tops : List FeedRef}
    (hcode : ∀ top ∈ tops, top.feed.feedcode = sf.feed.feedcode) :
    (continuityReport sf tops).Named ↔ ∀ top ∈ tops, Agrees sf.feed top := by
  unfold Report.Named continuityReport
  simp only [List.forall_mem_map]
  constructor
  · intro h top htop
    exact (h top htop).2
  · intro h top htop
    exact ⟨(hcode top htop).symm, h top htop⟩

section

variable {sf top : FeedRef} {rest : List FeedRef}
  {hsorted : (top :: rest).Pairwise (KeyLE FeedRef.exchangeTimestamp)} {et : Int}
  {context : Context} {s t : ExecState}

theorem drain_below (htop : top.exchangeTimestamp = et)
    (hbelow : DeficiencyProcessor.turnoverBelow sf.feed context)
    (hrelease : (s.push (Tracker.monotonicityAlert sf.feed)).release top.addr = .ok t) :
    reporting.drain sf (top :: rest) hsorted et context s =
      ⟨continuityReport sf ((top :: rest).filter (fun r => r.exchangeTimestamp = et)) ::
          (reporting.drain sf rest hsorted.of_cons (et + interval) context t).events,
        (reporting.drain sf rest hsorted.of_cons (et + interval) context t).result⟩ := by
  have hcheck : ∀ tops, reporting.detectContinuity sf tops context s =
      ⟨[continuityReport sf tops],
        .ok (context, s.push (Tracker.monotonicityAlert sf.feed))⟩ := by
    intro tops
    unfold Probe.detectContinuity
    by_cases hvalue : sf.feed.turnoverValue < context.preValue
    · simp only [effect_bind, hvalue, if_true]
      rfl
    · have hvolume := hbelow.resolve_left hvalue
      simp only [effect_bind, hvalue, hvolume, if_true, if_false]
      rfl
  rw [Probe.drain]
  simp only [effect_bind, htop, if_true]
  rw [bind_of_ok (congrArg Traced.result (hcheck _)), hcheck]
  simp only [releaseTop_bind hrelease, compute_bind]
  rfl

theorem drain_above (htop : top.exchangeTimestamp = et)
    (habove : ¬ DeficiencyProcessor.turnoverBelow sf.feed context)
    (hrelease : s.release top.addr = .ok t) :
    reporting.drain sf (top :: rest) hsorted et context s =
      reporting.drain sf rest hsorted.of_cons (et + interval)
        {context with preValue := sf.feed.turnoverValue
                      preVolume := sf.feed.turnoverVolume} t := by
  obtain ⟨hvalue, hvolume⟩ := not_or.mp habove
  rw [Probe.drain]
  simp only [Probe.detectContinuity, effect_bind, htop, hvalue, hvolume, if_true, if_false,
    Traced.pure_bind, releaseTop_bind hrelease, compute_bind]

theorem drain_stale (htop : top.exchangeTimestamp < et) (hrelease : s.release top.addr = .ok t) :
    reporting.drain sf (top :: rest) hsorted et context s =
      reporting.drain sf rest hsorted.of_cons et context t := by
  rw [Probe.drain]
  simp only [effect_bind, htop.ne, htop, if_true, if_false, releaseTop_bind hrelease]

end

theorem alone_cons_stale {sf : StatisticsFeed} {top : FeedRef} {rest : List FeedRef} {et : Int}
    (htop : top.exchangeTimestamp < et) : Alone sf (top :: rest) et ↔ Alone sf rest et := by
  have hinterval := interval_pos
  unfold Alone
  constructor
  · intro h r hr hrt
    obtain ⟨hagrees, hnext⟩ := h r (List.mem_cons_of_mem _ hr) hrt
    exact ⟨hagrees, fun r' hr' => hnext r' (List.mem_cons_of_mem _ hr')⟩
  · intro h r hr hrt
    rcases List.mem_cons.mp hr with rfl | hr
    · omega
    · obtain ⟨hagrees, hnext⟩ := h r hr hrt
      exact ⟨hagrees, List.forall_mem_cons.mpr ⟨by omega, hnext⟩⟩

/-- With a feed at the expected tick on top, nothing further may be accepted: it
would have to have the same timestamp. -/
theorem alone_cons_expected {sf : StatisticsFeed} {top : FeedRef} {rest : List FeedRef} {et : Int}
    (htop : top.exchangeTimestamp = et) :
    Alone sf (top :: rest) et ↔
      (∀ r ∈ (top :: rest).filter (fun r => r.exchangeTimestamp = et), Agrees sf r) ∧
        Alone sf rest (et + interval) := by
  have hinterval := interval_pos
  have hfilter : ∀ r, r ∈ (top :: rest).filter (fun r => r.exchangeTimestamp = et) ↔
      r ∈ top :: rest ∧ r.exchangeTimestamp = et := by
    intro r
    rw [List.mem_filter, decide_eq_true_iff]
  constructor
  · intro h
    obtain ⟨_, hnext⟩ := h top List.mem_cons_self htop
    refine ⟨?_, ?_⟩
    · intro r hr
      obtain ⟨hmem, hrt⟩ := (hfilter r).mp hr
      exact (h r hmem hrt).1
    · intro r hr hrt
      exact absurd hrt (hnext r (List.mem_cons_of_mem _ hr))
  · rintro ⟨htops, hrest⟩ r hr hrt
    refine ⟨htops r ((hfilter r).mpr ⟨hr, hrt⟩), ?_⟩
    intro r' hr' hr't
    have htime := (htops top ((hfilter top).mpr ⟨List.mem_cons_self, htop⟩)).1
    rcases List.mem_cons.mp hr' with rfl | hr'
    · omega
    · have htime' := (hrest r' hr' hr't).1.1
      omega

theorem alone_cons_early {sf : StatisticsFeed} {top : FeedRef} {rest : List FeedRef} {et : Int}
    (hsorted : (top :: rest).Pairwise (KeyLE FeedRef.exchangeTimestamp))
    (htop : et < top.exchangeTimestamp) :
    Alone sf (top :: rest) et := by
  intro r hr hrt
  rcases List.mem_cons.mp hr with rfl | hr
  · omega
  · have hle : top.exchangeTimestamp ≤ r.exchangeTimestamp := MinQueue.head_le hsorted hr
    omega

/-- A loop that ends well: the alerts of its reports are those it has added, and
all of them name their feed if the arriving feed is not below the stored pair,
or else at most feeds with its own figures are accepted. The induction follows
the loop. -/
theorem drain_spec (sf : FeedRef) (l : List FeedRef)
    (hsorted : l.Pairwise (KeyLE FeedRef.exchangeTimestamp)) (et : Int) (context : Context)
    (s : ExecState) {out : Int × Context × ExecState}
    (hcode : ∀ r ∈ l, r.feed.feedcode = sf.feed.feedcode)
    (hdrain : DeficiencyProcessor.drain sf l hsorted et context s = .ok out) :
    out.2.2.self.res.json =
        s.self.res.json ++ (reporting.drain sf l hsorted et context s).events.map Report.alert ∧
      ((∀ report ∈ (reporting.drain sf l hsorted et context s).events, report.Named) ↔
        (DeficiencyProcessor.turnoverBelow sf.feed context → Alone sf.feed l et)) := by
  induction l generalizing et context s with
  | nil =>
      cases hdrain
      refine ⟨(List.append_nil _).symm, iff_of_true ?_ ?_⟩
      · intro report hreport
        cases hreport
      · intro _ r hr
        cases hr
  | cons top rest ih =>
      have hrest := (List.forall_mem_cons.mp hcode).2
      rcases lt_trichotomy top.exchangeTimestamp et with hlt | heq | hgt
      · have hne : top.exchangeTimestamp ≠ et := hlt.ne
        simp only [DeficiencyProcessor.drain_cons, hne, hlt, if_false, if_true] at hdrain
        obtain ⟨t, ht, hloop⟩ := bind_eq_ok.mp hdrain
        obtain ⟨_, _, hres⟩ := release_mapped ht
        obtain ⟨hjson, hnamed⟩ := ih _ et context t hrest hloop
        rw [drain_stale hlt ht, alone_cons_stale hlt, hjson, hres]
        exact ⟨rfl, hnamed⟩
      · by_cases hbelow : DeficiencyProcessor.turnoverBelow sf.feed context
        · simp only [DeficiencyProcessor.drain_cons, heq, if_true, hbelow] at hdrain
          obtain ⟨t, ht, hloop⟩ := bind_eq_ok.mp hdrain
          obtain ⟨_, _, hres⟩ := release_mapped ht
          obtain ⟨hjson, hnamed⟩ := ih _ (et + interval) context t hrest hloop
          have htops : ∀ r ∈ (top :: rest).filter (fun r => r.exchangeTimestamp = et),
              r.feed.feedcode = sf.feed.feedcode :=
            fun r hr => hcode r (List.mem_of_mem_filter hr)
          rw [drain_below heq hbelow ht]
          refine ⟨?_, ?_⟩
          · rw [hjson, hres, List.map_cons]
            exact List.append_assoc _ [Tracker.monotonicityAlert sf.feed] _
          · rw [List.forall_mem_cons, continuityReport_named_iff htops, hnamed,
              alone_cons_expected heq]
            simp only [hbelow, true_imp_iff]
        · simp only [DeficiencyProcessor.drain_cons, heq, if_true, hbelow, if_false] at hdrain
          obtain ⟨t, ht, hloop⟩ := bind_eq_ok.mp hdrain
          obtain ⟨_, _, hres⟩ := release_mapped ht
          obtain ⟨hjson, hnamed⟩ := ih _ (et + interval) _ t hrest hloop
          rw [drain_above heq hbelow ht, hjson, hres]
          -- the pair is now the arriving feed's own
          have hself := not_turnoverBelow_self context sf.feed
          exact ⟨rfl, iff_of_true (hnamed.mpr (fun h => absurd h hself))
            (fun h => absurd h hbelow)⟩
      · have hne : top.exchangeTimestamp ≠ et := hgt.ne'
        have hnlt : ¬ top.exchangeTimestamp < et := by omega
        simp only [DeficiencyProcessor.drain_cons, hne, hnlt, if_false] at hdrain
        cases hdrain
        rw [Probe.drain]
        simp only [effect_bind, hne, hnlt, if_false, events_pure]
        refine ⟨(List.append_nil _).symm, iff_of_true ?_ ?_⟩
        · intro report hreport
          cases hreport
        · intro _
          exact alone_cons_early hsorted hgt

end Attributed

/-- A feed that arrives in this context gives rise to no alert that names
something else: an invalid turnover is printed with the feed's own timestamp,
and where a waiting feed is to be accepted and the continuity check fails, that
feed has the figures that are printed and no other is accepted after it. -/
structure Context.Attributable (context : Context) (sf : StatisticsFeed) : Prop where
  invalid : sf.turnoverValue ≤ 0 ∨ sf.turnoverVolume ≤ 0 →
    sf.timestamp = sf.exchangeTimestamp
  accepted : context.expectTimestamp < sf.exchangeTimestamp →
    DeficiencyProcessor.turnoverBelow sf context →
    ∀ r ∈ context.queue.toList, r.exchangeTimestamp = context.expectTimestamp →
      Attributed.Agrees sf r ∧ sf.exchangeTimestamp ≠ context.expectTimestamp + interval ∧
        ∀ r' ∈ context.queue.toList, r'.exchangeTimestamp ≠ context.expectTimestamp + interval

namespace Attributed

theorem alone_push_iff (context : Context) {sf : FeedRef}
    (hearly : context.expectTimestamp < sf.exchangeTimestamp) :
    Alone sf.feed (context.queue.push sf).toList context.expectTimestamp ↔
      ∀ r ∈ context.queue.toList, r.exchangeTimestamp = context.expectTimestamp →
        Agrees sf.feed r ∧ sf.exchangeTimestamp ≠ context.expectTimestamp + interval ∧
          ∀ r' ∈ context.queue.toList,
            r'.exchangeTimestamp ≠ context.expectTimestamp + interval := by
  unfold Alone
  simp only [MinQueue.mem_push, forall_eq_or_imp]
  constructor
  · intro h
    exact h.2
  · intro h
    exact ⟨fun hsf => absurd hsf hearly.ne', h⟩

/-- The tick that is given up is named. -/
theorem afterDrain_spec {feedcode : String} {context : Context} {s t : ExecState}
    (h : (reporting.afterDrain feedcode context s).result = .ok t) :
    t.self.res.json = s.self.res.json ++
        (reporting.afterDrain feedcode context s).events.map Report.alert ∧
      ∀ report ∈ (reporting.afterDrain feedcode context s).events, report.Named := by
  unfold Probe.afterDrain at h ⊢
  simp only [effect_bind] at h ⊢
  split_ifs at h ⊢ with hlimit
  · cases h
    refine ⟨rfl, List.forall_mem_singleton.mpr ?_⟩
    exact List.forall_mem_singleton.mpr ⟨rfl, rfl⟩
  · cases h
    exact ⟨(List.append_nil _).symm, List.forall_mem_nil _⟩

/-- Receiving a feed in the context of its feedcode. -/
theorem receive_spec {p t : ExecState} {context : Context} {sf : FeedRef}
    (hcode : ∀ r ∈ context.queue.toList, r.feed.feedcode = sf.feed.feedcode)
    (hreceive : DeficiencyProcessor.receive p context sf = .ok t) :
    t.self.res.json = p.self.res.json ++ (reporting.receive p context sf).events.map Report.alert ∧
      ((∀ report ∈ (reporting.receive p context sf).events, report.Named) ↔
        (context.expectTimestamp < sf.exchangeTimestamp →
          DeficiencyProcessor.turnoverBelow sf.feed context →
          Alone sf.feed (context.queue.push sf).toList context.expectTimestamp)) := by
  have hok := (Probe.receive_result (fun _ => []) (fun r => [r]) p context sf).trans hreceive
  rcases lt_trichotomy context.expectTimestamp sf.exchangeTimestamp with hlt | heq | hgt
  · have hne : context.expectTimestamp ≠ sf.exchangeTimestamp := hlt.ne
    have hnlt : ¬ context.expectTimestamp > sf.exchangeTimestamp := by omega
    simp only [DeficiencyProcessor.receive_eq, hne, hnlt, if_false] at hreceive
    obtain ⟨out, hdrain, _⟩ := bind_eq_ok.mp hreceive
    have hpushed : ∀ r ∈ (context.queue.push sf).toList, r.feed.feedcode = sf.feed.feedcode := by
      intro r hr
      rcases (context.queue.mem_push sf r).mp hr with rfl | hr
      · rfl
      · exact hcode r hr
    obtain ⟨hjson, hnamed⟩ := drain_spec sf _ _ _ _ _ hpushed hdrain
    have hresult := (Probe.drain_result (fun _ => []) (fun r => [r]) sf _ _ _ _ _).trans hdrain
    simp only [Probe.receive, Probe.receiveEarly, Probe.drainPushed, effect_bind, hne, hnlt,
      if_false] at hok ⊢
    rw [bind_of_ok hresult] at hok ⊢
    obtain ⟨hafter, hmiss⟩ := afterDrain_spec hok
    simp only [List.map_append, List.forall_mem_append, hnamed, hlt, true_imp_iff]
    refine ⟨?_, ?_⟩
    · rw [hafter, hjson, List.append_assoc]
    · exact ⟨fun h => h.1, fun h => ⟨h, hmiss⟩⟩
  · have hnlt : ¬ context.expectTimestamp < sf.exchangeTimestamp := by omega
    simp only [DeficiencyProcessor.receive_eq, heq, if_true] at hreceive
    obtain ⟨_, _, hres⟩ := release_mapped hreceive
    simp only [Probe.receive, Probe.receiveOnTime, effect_bind, compute_bind, Probe.traced_lift,
      heq, hreceive, lift_ok_bind, events_pure, if_true]
    refine ⟨?_, iff_of_true (List.forall_mem_nil _) (fun h => absurd h (lt_irrefl _))⟩
    rw [hres]
    exact (List.append_nil _).symm
  · have hne : context.expectTimestamp ≠ sf.exchangeTimestamp := hgt.ne'
    have hnlt : ¬ context.expectTimestamp < sf.exchangeTimestamp := by omega
    simp only [Probe.receive, Probe.receiveLate, effect_bind, hne, gt_iff_lt, hgt, if_false,
      if_true] at hok ⊢
    cases hok
    refine ⟨rfl, iff_of_true (List.forall_mem_singleton.mpr ?_) (fun h => absurd h hnlt)⟩
    exact List.forall_mem_singleton.mpr ⟨rfl, rfl⟩

theorem invalidReports_named_iff (sf : StatisticsFeed) :
    (∀ report ∈ Probe.invalidReports sf, report.Named) ↔
      (sf.turnoverValue ≤ 0 ∨ sf.turnoverVolume ≤ 0 → sf.timestamp = sf.exchangeTimestamp) := by
  unfold Probe.invalidReports Tracker.invalidAlerts
  split_ifs with hinvalid
  · simp [hinvalid, Report.Named, Alert.Names]
  · simp [hinvalid]

/-- A Statistics message is received in its feedcode's context. -/
theorem reporting_exec {s : ExecState} {m : Nat} {msg : MyMessage} {r : FeedRef}
    (hmsg : s.heap.get? m = some msg) (href : msg.ref? = some r) :
    ∃ p : ExecState, reporting.exec s m = ⟨Probe.invalidReports r.feed ++
        (reporting.receive p (s.contextFor r.feed) r).events,
        (reporting.receive p (s.contextFor r.feed) r).result⟩ ∧
      p.self.res.json = Tracker.invalidAlerts r.feed := by
  obtain ⟨p, hjson, hexec⟩ := Probe.exec_eq_receive hmsg href
  refine ⟨p, ?_, hjson⟩
  have hnone : (Probe.opening s r.feed).flatMap (fun _ => ([] : List Report)) = [] :=
    List.flatMap_eq_nil_iff.mpr fun _ _ => rfl
  rw [hexec, hnone, List.flatMap_singleton', List.nil_append]

theorem exec_spec {s t : ExecState} (hown : s.Owned) {m : Nat} {msg : MyMessage} {r : FeedRef}
    (hmsg : s.heap.get? m = some msg) (href : msg.ref? = some r)
    (hexec : DeficiencyProcessor.exec s m = .ok t) :
    t.self.res.json = (reporting.exec s m).events.map Report.alert ∧
      ((∀ report ∈ (reporting.exec s m).events, report.Named) ↔
        (s.contextFor r.feed).Attributable r.feed) := by
  obtain ⟨p, hreports, hjson⟩ := reporting_exec hmsg href
  have hreceive : DeficiencyProcessor.receive p (s.contextFor r.feed) r = .ok t := by
    rw [← hexec, ← Probe.exec_result (fun _ => []) (fun r => [r]), hreports,
      Probe.receive_result]
  have hcode : ∀ r' ∈ (s.contextFor r.feed).queue.toList, r'.feed.feedcode = r.feed.feedcode := by
    intro r' hr'
    rw [s.contextFor_queue] at hr'
    exact (hown.queued _ r' hr').1
  obtain ⟨hreceived, hnamed⟩ := receive_spec hcode hreceive
  rw [hreports]
  refine ⟨?_, ?_⟩
  · have halerts : (Probe.invalidReports r.feed).map Report.alert =
        Tracker.invalidAlerts r.feed := by
      unfold Probe.invalidReports
      rw [List.map_map]
      exact List.map_id _
    rw [hreceived, hjson, List.map_append, halerts]
  · rw [List.forall_mem_append, invalidReports_named_iff, hnamed]
    constructor
    · rintro ⟨hinvalid, halone⟩
      exact ⟨hinvalid, fun hearly hbelow =>
        (alone_push_iff (s.contextFor r.feed) hearly).mp (halone hearly hbelow)⟩
    · rintro ⟨hinvalid, haccepted⟩
      exact ⟨hinvalid, fun hearly hbelow =>
        (alone_push_iff _ hearly).mpr (haccepted hearly hbelow)⟩

end Attributed

/-- The condition before a message. -/
def ExecState.Attributable (s : ExecState) : Feed → Prop
  | .statistics sf => (s.contextFor sf).Attributable sf
  | .price _ => True

namespace Attributed

theorem process_spec {s t : Session} (hown : s.state.Owned) (incoming : Incoming)
    (hprocess : s.process incoming = .ok t) :
    t.recorded = s.recorded ++ (process s incoming).events.map Report.alert ∧
      ((∀ report ∈ (process s incoming).events, report.Named) ↔
        s.state.Attributable incoming.feed) := by
  let ready : ExecState := {s.state with heap := (s.state.heap.alloc incoming.toMessage).2}
  have hready : ready.Owned := hown.alloc incoming.toMessage_places
  have hget : ready.heap.get? s.state.heap.brk =
      some (incoming.toMessage (s.state.heap.brk + 1)) := Heap.alloc_get?_new _ _
  obtain ⟨state, hexec, hlog⟩ := bind_eq_ok.mp hprocess
  cases hlog
  have hok : (reporting.exec ready s.state.heap.brk).result = .ok state :=
    (Probe.exec_result _ _ _ _).trans hexec
  have hevents : (process s incoming).events = (reporting.exec ready s.state.heap.brk).events := by
    change (reporting.exec ready s.state.heap.brk >>= _).events = _
    rw [bind_of_ok hok]
    exact List.append_nil _
  have hrecorded : Session.recorded ⟨state, s.log ++ [(incoming, state.self.res.json)]⟩ =
      s.recorded ++ state.self.res.json := by
    simp [Session.recorded]
  rw [hevents, hrecorded]
  obtain ⟨message, feed⟩ := incoming
  cases feed with
  | price pf =>
      have hclear : DeficiencyProcessor.exec ready s.state.heap.brk = _ := exec_price hget rfl
      obtain rfl : state = _ := Except.ok.inj (hexec.symm.trans hclear)
      rw [Probe.exec_price_events _ _ _ hget rfl]
      exact ⟨rfl, iff_of_true (List.forall_mem_nil _) trivial⟩
  | statistics sf =>
      have href := toMessage_statistics_ref? message sf (s.state.heap.brk + 1)
      obtain ⟨hjson, hnamed⟩ := exec_spec hready hget href hexec
      rw [hjson]
      exact ⟨rfl, hnamed⟩

/-- One more message: the session goes on, and so do the reports. -/
theorem run_concat {messages : List Incoming} {s : Session} (hrun : Session.run messages = .ok s)
    (incoming : Incoming) :
    ∃ t, Session.run (messages ++ [incoming]) = .ok t ∧
      t.recorded = s.recorded ++ (process s incoming).events.map Report.alert ∧
      (run (messages ++ [incoming])).events =
        (run messages).events ++ (process s incoming).events ∧
      ((∀ report ∈ (process s incoming).events, report.Named) ↔
        s.state.Attributable incoming.feed) := by
  obtain ⟨s', hrun', hprojects⟩ := Session.run_projects messages
  obtain rfl : s = s' := Except.ok.inj (hrun.symm.trans hrun')
  obtain ⟨t, hprocess, _⟩ := Session.process_projects hprojects incoming
  obtain ⟨hrecorded, hnamed⟩ := process_spec hprojects.owned incoming hprocess
  have hresult : (messages.foldlM process Session.start).result = .ok s :=
    (run_result messages).trans hrun
  refine ⟨t, ?_, hrecorded, events_foldlM_concat process hresult incoming, hnamed⟩
  unfold Session.run at hrun ⊢
  rw [foldlM_concat, hrun]
  exact hprocess

/-- The alerts of the reports are the recorded ones. -/
theorem run_recorded (messages : List Incoming) :
    ∃ s, Session.run messages = .ok s ∧
      (run messages).events.map Report.alert = s.recorded := by
  induction messages using List.reverseRecOn with
  | nil => exact ⟨Session.start, rfl, rfl⟩
  | append_singleton messages incoming ih =>
      obtain ⟨s, hrun, hrecorded⟩ := ih
      obtain ⟨t, hnext, hadded, hevents, _⟩ := run_concat hrun incoming
      refine ⟨t, hnext, ?_⟩
      rw [hevents, List.map_append, hrecorded, hadded]

theorem run_concat_named_iff (messages : List Incoming) (incoming : Incoming) :
    (∀ report ∈ (run (messages ++ [incoming])).events, report.Named) ↔
      (∀ report ∈ (run messages).events, report.Named) ∧
        ∀ s, Session.run messages = .ok s → s.state.Attributable incoming.feed := by
  obtain ⟨s, hrun, _⟩ := run_recorded messages
  obtain ⟨_, _, _, hevents, hnamed⟩ := run_concat hrun incoming
  rw [hevents, List.forall_mem_append, hnamed, hrun]
  simp only [Except.ok.injEq, forall_eq']

/-- What a run has reported stays reported. -/
theorem named_of_append {messages more : List Incoming}
    (h : ∀ report ∈ (run (messages ++ more)).events, report.Named) :
    ∀ report ∈ (run messages).events, report.Named := by
  induction more using List.reverseRecOn with
  | nil => rwa [List.append_nil] at h
  | append_singleton more incoming ih =>
      rw [← List.append_assoc, run_concat_named_iff] at h
      exact ih h.1

end Attributed

/-- Over any sequence of messages the session succeeds, its recorded alerts are
those of the reports, and each of them names what it is about if and only if
every message meets the condition in the state before it. -/
theorem alerts_name_tick_iff (messages : List Incoming) :
    ∃ s, Session.run messages = .ok s ∧
      (Attributed.run messages).events.map Report.alert = s.recorded ∧
      ((∀ report ∈ (Attributed.run messages).events, report.Named) ↔
        ∀ n (hn : n < messages.length), ∀ t, Session.run (messages.take n) = .ok t →
          t.state.Attributable messages[n].feed) := by
  obtain ⟨s, hrun, hrecorded⟩ := Attributed.run_recorded messages
  refine ⟨s, hrun, hrecorded, ?_⟩
  have hsteps := forall_take_iff
    (P := fun xs => ∀ report ∈ (Attributed.run xs).events, report.Named)
    (C := fun xs x => ∀ t, Session.run xs = .ok t → t.state.Attributable x.feed)
    messages (List.forall_mem_nil _) (by
      intro xs x _ hxs
      rw [Attributed.run_concat_named_iff]
      exact and_iff_right hxs)
  rw [← hsteps]
  constructor
  · intro h n _
    rw [← List.take_append_drop n messages] at h
    exact Attributed.named_of_append h
  · intro h
    have hall := h messages.length le_rfl
    rwa [List.take_length] at hall

/-- Messages with these feeds, from one partition. -/
def delivered (feeds : List StatisticsFeed) : List Incoming :=
  feeds.mapIdx (fun offset sf => ⟨⟨"feed", 0, offset⟩, .statistics sf⟩)

/-- The member `timestamp` is 0, as `build` leaves it. A feed without turnover at
tick 1 is reported with that timestamp. The feed at tick 3 lets the waiting one
at tick 2 through, and the alert about that one has the timestamp 0 and the
turnover of tick 3. -/
theorem alert_names_other_tick :
    ((Attributed.run (delivered [sampleFeed 1 0])).events =
        [⟨[.feed (sampleFeed 1 0)], .invalidTurnover "rb1000" 0 0 0⟩] ∧
      ¬ Report.Named ⟨[.feed (sampleFeed 1 0)], .invalidTurnover "rb1000" 0 0 0⟩) ∧
    (Attributed.run (delivered
        [sampleFeed 0 5, sampleFeed 2 5, sampleFeed 1 5, sampleFeed 3 1])).events =
      [⟨[.feed (sampleFeed 2 5)], .monotonicity "rb1000" 0 1 1⟩,
        ⟨[.feed (sampleFeed 3 1)], .monotonicity "rb1000" 0 1 1⟩] ∧
      ¬ Report.Named ⟨[.feed (sampleFeed 2 5)], .monotonicity "rb1000" 0 1 1⟩ := by
  refine ⟨⟨by decide +kernel, ?_⟩, by decide +kernel, ?_⟩
  · intro h
    have htick := (h _ List.mem_cons_self).2
    exact absurd htick (by decide)
  · intro h
    have hfigures := (h _ List.mem_cons_self).2.2.1
    exact absurd hfigures (by decide)

end OLog
