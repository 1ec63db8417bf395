import OLog.Continuity
import OLog.LiveCounts

/-!
Which alerts reach the producer. The loop passes the recorded alerts on if the
result's code is not `OK`; the code is set by every alert but the continuity
one, and it is never reset. So a continuity alert is lost exactly if it is
recorded alone, by a processor that has not recorded another alert before.
-/

namespace OLog

open Lib DeficiencyProcessor

namespace Tracker

/-- The feed raises the continuity alert and no miss. -/
def Silent (tracker : Tracker) (sf : StatisticsFeed) : Prop :=
  tracker.Checks sf ∧ Below sf tracker ∧ (tracker.kept sf).card ≤ queueLimit

theorem not_silent_of_not_early {tracker : Tracker} {sf : StatisticsFeed}
    (h : sf.exchangeTimestamp ≤ tracker.expectTimestamp) : ¬ tracker.Silent sf := by
  rintro ⟨⟨hearly, _⟩, _⟩
  omega

/-- The alerts of one feed are empty, or one of them sets the code, exactly if
the feed is not silent. -/
theorem receive_heard_iff (tracker : Tracker) (sf : StatisticsFeed) :
    ((tracker.receive sf).2 = [] ∨ (tracker.receive sf).2.any Alert.warns = true) ↔
      ¬ tracker.Silent sf := by
  rcases lt_trichotomy tracker.expectTimestamp sf.exchangeTimestamp with ht | ht | ht
  · by_cases hsize : queueLimit < (tracker.kept sf).card
    · rw [receive_early_miss ht hsize]
      apply iff_of_true
      · right
        simp [Alert.warns]
      · rintro ⟨_, _, hle⟩
        omega
    · rw [receive_early_wait ht (by omega)]
      have hquiet : (tracker.continuityAlerts sf (tracker.run sf)).any Alert.warns = false := by
        unfold continuityAlerts
        split_ifs
        · simp [monotonicityAlert, Alert.warns]
        · rfl
      have hempty : tracker.continuityAlerts sf (tracker.run sf) = [] ↔
          ¬ (tracker.Checks sf ∧ Below sf tracker) := by
        rw [← run_pos_iff ht]
        unfold continuityAlerts
        split_ifs with hbelow
        · simp [hbelow]
        · simp [hbelow]
      simp only [hquiet, Bool.false_eq_true, or_false, hempty, Silent]
      have hle : (tracker.kept sf).card ≤ queueLimit := by omega
      simp [hle]
  · rw [receive_onTime ht]
    exact iff_of_true (Or.inl rfl) (not_silent_of_not_early (by omega))
  · rw [receive_late ht]
    exact iff_of_true (Or.inr rfl) (not_silent_of_not_early (by omega))

end Tracker

theorem codeAfter_ne_ok (code : Status) (alerts : List Alert) :
    codeAfter code alerts ≠ .ok ↔ code ≠ .ok ∨ alerts.any Alert.warns = true := by
  unfold codeAfter
  split_ifs with hwarns
  · simp [hwarns]
  · simp [hwarns]

/-- The continuity alert is raised, in a state in which nothing else is: the
feed is early, a feed at the expected tick is in the queue, its turnover is
below the stored pair, and at most `queueLimit` feeds lie behind the first tick
that neither it nor a waiting feed has. -/
def Context.Silent (context : Context) (sf : StatisticsFeed) : Prop :=
  context.Checks sf ∧ turnoverBelow sf context ∧ (context.view.kept sf).card ≤ queueLimit

theorem Context.silent_view (context : Context) (sf : StatisticsFeed) :
    context.view.Silent sf ↔ context.Silent sf := by
  unfold Tracker.Silent Silent
  rw [context.checks_view]
  rfl

namespace EventLoop

/-- The alerts on a feed, if any, will be heard: the processor has warned
before, or the turnover is invalid, or the feed is not silent. -/
def Heard (l : EventLoop) (d : DeficiencyProcessor) (sf : StatisticsFeed) : Prop :=
  d.res.code ≠ .ok ∨ sf.turnoverValue ≤ 0 ∨ sf.turnoverVolume ≤ 0 ∨
    ∀ context ∈ l.contextMap.getContext sf.feedcode, ¬ context.Silent sf

/-- Of the alerts that the feed raises in its context, if any, one sets the
code. -/
theorem exec_heard_iff (l : EventLoop) (d : DeficiencyProcessor) (sf : StatisticsFeed)
    {alerts : List Alert}
    (halerts : alerts =
      (Tracker.exec ((l.contextMap.getContext sf.feedcode).map Context.view) sf).2) :
    (alerts ≠ [] → codeAfter d.res.code alerts ≠ .ok) ↔ l.Heard d sf := by
  let tracker := ((l.contextMap.getContext sf.feedcode).map Context.view).getD (Tracker.opened sf)
  have hsilent : ¬ tracker.Silent sf ↔
      ∀ context ∈ l.contextMap.getContext sf.feedcode, ¬ context.Silent sf := by
    unfold tracker
    cases l.contextMap.getContext sf.feedcode with
    | none => simpa using Tracker.not_silent_of_not_early (le_refl sf.exchangeTimestamp)
    | some context => simp [context.silent_view]
  have hsplit : alerts = Tracker.invalidAlerts sf ++ (tracker.receive sf).2 := halerts
  unfold Heard
  rw [codeAfter_ne_ok, ← hsilent, ← tracker.receive_heard_iff sf, hsplit]
  by_cases hinvalid : sf.turnoverValue ≤ 0 ∨ sf.turnoverVolume ≤ 0
  · have hwarns : (Tracker.invalidAlerts sf).any Alert.warns = true := by
      simp [Tracker.invalidAlerts, hinvalid, Alert.warns]
    rw [List.any_append, hwarns]
    exact iff_of_true (fun _ => Or.inr rfl) (Or.inr (or_assoc.mp (Or.inl hinvalid)))
  · have hnone : Tracker.invalidAlerts sf = [] := if_neg hinvalid
    obtain ⟨hvalue, hvolume⟩ := not_or.mp hinvalid
    rw [hnone, List.nil_append]
    simp only [hvalue, hvolume, false_or]
    rw [imp_iff_not_or, not_not, or_left_comm]

/-- What the loop passes on after a processor has run. -/
theorem advance_published_iff (l : EventLoop) (heap : Heap) (contextMap : ContextMap)
    (processor : Processor) (pending : List Processor) :
    processor.getResult.json.Sublist
        ((l.advance heap contextMap processor pending).produced.drop l.produced.length) ↔
      (processor.getResult.json ≠ [] → processor.getResult.code ≠ .ok) := by
  by_cases hcode : processor.getResult.code = .ok
  · simp [EventLoop.advance, hcode]
  · simp [EventLoop.advance, hcode]

section Deliver

variable {l : EventLoop} {d : DeficiencyProcessor} {m : Nat} {msg : MyMessage}
  {pending : List Processor}

/-- The DeficiencyProcessor does not fail on a message that parsed. -/
theorem Inv.execNext_ok (h : l.Inv d) (hrun : l.running = some m)
    (hpending : l.pending = .deficiency d :: pending) (hmsg : l.heap.get? m = some msg)
    {feed : Feed} (hcarries : msg.Carries feed) : ∃ l', l.execNext = .ok l' := by
  obtain ⟨⟨addr, hfeed⟩, htype⟩ := hcarries
  cases feed with
  | price pf =>
      exact ⟨_, by rw [execNext_deficiency hrun hpending, exec_price hmsg htype]; rfl⟩
  | statistics sf =>
      have href : msg.ref? = some ⟨addr, sf⟩ := by
        unfold MyMessage.ref?
        rw [htype, hfeed]
        rfl
      obtain ⟨_, _, _, _, hnext⟩ := h.execNext_statistics hrun hpending hmsg href
      exact ⟨_, hnext⟩

/-- What it records is passed on exactly if it is heard. -/
theorem Inv.delivered_iff (h : l.Inv d) (hrun : l.running = some m)
    (hpending : l.pending = .deficiency d :: pending) (hmsg : l.heap.get? m = some msg)
    {l' : EventLoop} (hexec : l.execNext = .ok l') :
    ∃ d', l'.processed = l.processed ++ [.deficiency d'] ∧
      (d'.res.json.Sublist (l'.produced.drop l.produced.length) ↔
        (d'.res.json ≠ [] → d'.res.code ≠ .ok)) ∧
      ((d'.res.json ≠ [] → d'.res.code ≠ .ok) ↔ ∀ r, msg.ref? = some r → l.Heard d r.feed) := by
  rw [execNext_deficiency hrun hpending] at hexec
  cases ht : exec (l.execState d) m with
  | error e =>
      rw [ht] at hexec
      cases hexec
  | ok t =>
      rw [ht] at hexec
      cases hexec
      refine ⟨t.self, rfl, l.advance_published_iff _ _ (.deficiency t.self) _, ?_⟩
      cases href : msg.ref? with
      | none =>
          rw [exec_of_no_ref hmsg href ht]
          apply iff_of_true
          · intro hjson
            exact absurd rfl hjson
          · intro r hr
            cases hr
      | some r =>
          obtain ⟨t', _, ht', hdone, _⟩ := h.execNext_statistics hrun hpending hmsg href
          rw [ht] at ht'
          cases ht'
          simp only [Option.some.injEq, forall_eq']
          rw [hdone.json, hdone.code]
          exact l.exec_heard_iff d r.feed rfl

end Deliver

/-- In every interleaving, when the DeficiencyProcessor has run on the message
at hand: everything it recorded is passed to the producer, equivalently its
code is not `OK` if it recorded anything, exactly if the message is heard. -/
theorem alerts_published_iff (processors : List Processor)
    (hone : processors.filterMap Processor.deficiency? = [DeficiencyProcessor.fresh])
    (l : EventLoop) (hreach : Reachable processors l) (m : Nat) (msg : MyMessage)
    (d : DeficiencyProcessor) (pending : List Processor) (hrun : l.running = some m)
    (hpending : l.pending = .deficiency d :: pending) (hmsg : l.heap.get? m = some msg) :
    (∀ feed, msg.Carries feed → ∃ l', l.execNext = .ok l') ∧
    ∀ l', l.execNext = .ok l' → ∃ d', l'.processed = l.processed ++ [.deficiency d'] ∧
      (d'.res.json.Sublist (l'.produced.drop l.produced.length) ↔
        ∀ r, msg.ref? = some r → l.Heard d r.feed) ∧
      ((d'.res.json ≠ [] → d'.res.code ≠ .ok) ↔
        ∀ r, msg.ref? = some r → l.Heard d r.feed) := by
  have hinv := hreach.inv_of_turn hone hpending
  refine ⟨fun feed hcarries => hinv.execNext_ok hrun hpending hmsg hcarries, ?_⟩
  intro l' hexec
  obtain ⟨d', hprocessed, hpublished, hheard⟩ := hinv.delivered_iff hrun hpending hmsg hexec
  exact ⟨d', hprocessed, hpublished.trans hheard, hheard⟩

/-- The first message has no turnover; the alert on it is passed on. -/
theorem alerts_published_invalid_turnover :
    let l := (start mainProcessors).consume (sampleIncoming 0 0 0).record
    ∃ l' d', l.execNext = .ok l' ∧ l'.processed = [.deficiency d'] ∧ d'.res.json ≠ [] ∧
      d'.res.json.Sublist l'.produced := by
  intro l
  have hreach : Reachable mainProcessors l :=
    Relation.ReflTransGen.single (Step.consume (sampleIncoming 0 0 0).record rfl)
  have hcheck : ∃ l', l.execNext = .ok l' ∧
      ∀ p ∈ l'.processed, p.getResult.json ≠ [] := by
    apply exists_ok_of_check
    decide +kernel
  obtain ⟨l', hexec, hsome⟩ := hcheck
  obtain ⟨_, hall⟩ := alerts_published_iff mainProcessors rfl l hreach 0 _ _ _ rfl rfl rfl
  obtain ⟨d', hprocessed, hiff, _⟩ := hall l' hexec
  refine ⟨l', d', hexec, hprocessed, hsome (.deficiency d') (by simp [hprocessed]), ?_⟩
  apply hiff.mpr
  intro r hr
  cases hr
  exact Or.inr (Or.inl (by decide +kernel))

/-- Feeds with increasing turnover, of which the last one nevertheless raises
the continuity alert: nothing has set the code, and the alert is lost. -/
theorem monotonicity_alert_unpublished :
    ∃ l m d pending l' d', Reachable mainProcessors l ∧ l.running = some m ∧
      l.pending = .deficiency d :: pending ∧ l.execNext = .ok l' ∧
      l'.processed = l.processed ++ [.deficiency d'] ∧ d'.res.json ≠ [] ∧
      d'.res.code = .ok ∧ ¬ d'.res.json.Sublist (l'.produced.drop l.produced.length) := by
  let record := (sampleIncoming 6 5 6).record
  have hcheck : ∃ before, run mainProcessors (sampleEvents [0, 2, 1, 9, 4, 3]) = .ok before ∧
      ((before.processors.head?.bind Processor.deficiency?).isSome ∧
        (before.consume record).execNext.toOption.any (fun l' =>
          ∀ p ∈ l'.processed, p.getResult.json ≠ [] ∧ p.getResult.code = .ok)) := by
    apply exists_ok_of_check
    decide +kernel
  obtain ⟨before, hrun, hhead, hexec⟩ := hcheck
  obtain ⟨hreach, hidle⟩ := run_reachable rfl hrun
  obtain ⟨l', hexec, hsilent⟩ := exists_ok_of_check hexec
  have hconsumed : Reachable mainProcessors (before.consume record) :=
    hreach.tail (Step.consume record hidle)
  obtain ⟨d, hd⟩ := Option.isSome_iff_exists.mp hhead
  obtain ⟨processor, hprocessor, hkind⟩ := Option.bind_eq_some_iff.mp hd
  obtain ⟨pending, hpending⟩ := List.head?_eq_some_iff.mp hprocessor
  cases processor with
  | validity v => cases hkind
  | deficiency d =>
      have hinv := hconsumed.inv_of_turn rfl hpending
      obtain ⟨d', hprocessed, hpublished, _⟩ :=
        hinv.delivered_iff rfl hpending (before.consume_incoming (sampleIncoming 6 5 6)) hexec
      obtain ⟨hsome, hcode⟩ := hsilent (.deficiency d') (by simp [hprocessed])
      refine ⟨before.consume record, _, _, pending, l', d', hconsumed, rfl, hpending, hexec,
        hprocessed, hsome, hcode, ?_⟩
      rw [hpublished]
      intro hheard
      exact hheard hsome hcode

end EventLoop

end OLog
