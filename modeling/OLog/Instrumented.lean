import OLog.ExecSpec
import OLog.Lib.Traced

/-!
`DeficiencyProcessor::exec` with a record of what is seen of it. The record does
not change the outcome: with exact arithmetic it is the `exec` of the plain
model. Two records are kept further on, one of what is done to a context's
mutex and members and of the timestamp arithmetic, one of the alerts with their
subjects.
-/

namespace OLog

open Lib Traced

namespace Probe

variable {E : Type} (effect : Effect → List E) (report : Report → List E) (fit : Int → Int)

/-- What is kept of the effects and of the reports. -/
def traced : Probe (Traced E Fault) where
  lift x := Traced.lift x
  effect e := ⟨effect e, .ok ()⟩
  report r := ⟨report r, .ok ()⟩
  fit := fit

@[simp] theorem traced_fit : (traced effect report fit).fit = fit := rfl

@[simp] theorem traced_lift {α : Type} (x : Except Fault α) :
    (traced effect report fit).lift x = Traced.lift x := rfl

@[simp] theorem effect_result (e : Effect) :
    ((traced effect report fit).effect e).result = .ok () := rfl

@[simp] theorem report_result (r : Report) :
    ((traced effect report fit).report r).result = .ok () := rfl

@[simp] theorem compute_result (value : Int) :
    ((traced effect report fit).compute value).result = .ok (fit value) := rfl

@[simp] theorem releaseTop_result (top : FeedRef) (s : ExecState) :
    ((traced effect report fit).releaseTop top s).result = s.release top.addr := by
  simp only [releaseTop, result_bind, effect_result, traced_lift, result_lift, ok_bind,
    result_pure]
  cases s.release top.addr <;> rfl

theorem detectContinuity_result (sf : FeedRef) (tops : List FeedRef) (context : Context)
    (s : ExecState) :
    ((traced effect report fit).detectContinuity sf tops context s).result =
      DeficiencyProcessor.plain.detectContinuity sf tops context s := by
  simp only [detectContinuity, reportContinuity, result_bind, effect_result, report_result,
    result_ite, result_pure]
  rfl

theorem drain_result (sf : FeedRef) (waiting : List FeedRef)
    (hsorted : waiting.Pairwise (KeyLE FeedRef.exchangeTimestamp)) (et : Int) (context : Context)
    (s : ExecState) :
    ((traced effect report id).drain sf waiting hsorted et context s).result =
      DeficiencyProcessor.drain sf waiting hsorted et context s := by
  induction waiting generalizing et context s with
  | nil => rfl
  | cons top rest ih =>
      rw [DeficiencyProcessor.drain_cons, drain]
      simp only [result_bind, effect_result, ok_bind, result_ite, detectContinuity_result,
        DeficiencyProcessor.detectContinuity_eq, releaseTop_result, compute_result, id_eq, ih,
        result_pure]

theorem afterDrain_result (feedcode : String) (context : Context) (s : ExecState) :
    ((traced effect report id).afterDrain feedcode context s).result =
      DeficiencyProcessor.plain.afterDrain feedcode context s := by
  simp only [afterDrain, result_bind, effect_result, report_result, result_ite, compute_result,
    result_pure]
  rfl

theorem receive_result (s : ExecState) (context : Context) (sf : FeedRef) :
    ((traced effect report id).receive s context sf).result =
      DeficiencyProcessor.receive s context sf := by
  simp only [receive, receiveOnTime, receiveLate, receiveEarly, drainPushed, result_bind,
    effect_result, report_result, traced_lift, result_lift, ok_bind, result_ite, compute_result,
    id_eq, result_pure, drain_result, afterDrain_result]
  rfl

theorem createContext_result (s : ExecState) (sf : StatisticsFeed) :
    ((traced effect report fit).createContext s sf).result =
      .ok (DeficiencyProcessor.createContext s sf) := rfl

theorem enter_result (s : ExecState) (message : Nat) (sf : FeedRef) :
    ((traced effect report fit).enter s message sf).result =
      DeficiencyProcessor.enter s message sf := by
  simp only [enter, result_bind, report_result, traced_lift, result_lift, result_ite, ok_bind,
    result_pure]
  rfl

theorem execStatistics_result (s : ExecState) (message : Nat) (sf : FeedRef) :
    ((traced effect report id).execStatistics s message sf).result =
      DeficiencyProcessor.execStatistics s message sf := by
  rw [DeficiencyProcessor.execStatistics_eq, ← enter_result effect report id]
  simp only [execStatistics, result_bind, result_ite, result_pure, createContext_result]
  cases ((traced effect report id).enter s message sf).result with
  | error f => rfl
  | ok entered =>
      simp only [ok_bind]
      -- the context is looked up in two branches, in each of which it may be absent
      split_ifs
      all_goals
        split
        · rfl
        · exact receive_result effect report _ _ _

theorem exec_result (s : ExecState) (message : Nat) :
    ((traced effect report id).exec s message).result = DeficiencyProcessor.exec s message := by
  rw [DeficiencyProcessor.exec_eq]
  simp only [exec, result_bind, traced_lift, result_lift]
  cases (s.setRes s.self.res.clear).heap.deref message with
  | error f => rfl
  | ok m =>
      obtain ⟨kafka, live, feed, type⟩ := m
      simp only [ok_bind]
      cases type with
      | statistics =>
          cases feed with
          | garbage => rfl
          | object addr feed =>
              cases feed with
              | statistics sf => exact execStatistics_result effect report _ _ _
              | price pf => rfl
      | _ => rfl

/-- What `enter` reports. -/
def invalidReports (sf : StatisticsFeed) : List Report :=
  (Tracker.invalidAlerts sf).map (fun alert => ⟨[.feed sf], alert⟩)

/-- What is done to a context before a feed is received in it. -/
def opening (s : ExecState) (sf : StatisticsFeed) : List Effect :=
  if s.contextMap.has sf.feedcode then []
  else [.lock, .write .expectTimestamp, .write .preValue, .write .preVolume, .unlock]

theorem createContext_events (s : ExecState) (sf : StatisticsFeed) :
    ((traced effect report fit).createContext s sf).events =
      [.lock, .write .expectTimestamp, .write .preValue, .write .preVolume,
        .unlock].flatMap effect := by
  simp only [List.flatMap_cons, List.flatMap_nil]
  rfl

/-- Entering with a message that is in the store. -/
theorem enter_spec {s : ExecState} {m : Nat} {msg : MyMessage}
    (hmsg : s.heap.get? m = some msg) (sf : FeedRef) :
    ∃ e : ExecState, e.contextMap = s.contextMap ∧
      e.self.res.json = s.self.res.json ++ Tracker.invalidAlerts sf.feed ∧
      ∀ {E : Type} (effect : Effect → List E) report fit,
        (traced effect report fit).enter s m sf =
          ⟨(invalidReports sf.feed).flatMap report, .ok e⟩ := by
  let entered : ExecState :=
    {s with heap := s.heap.store m {msg with live := msg.live + 1}
            self := {s.self with sfToM := s.self.sfToM.insert sf.addr m}}
  unfold invalidReports Tracker.invalidAlerts
  simp only [enter, traced_lift, Heap.live_of_get? hmsg, lift_ok_bind]
  split_ifs with hinvalid
  · refine ⟨entered.warn (.invalidTurnover sf.feed.feedcode sf.feed.timestamp
      sf.feed.turnoverVolume sf.feed.turnoverValue), rfl, rfl, ?_⟩
    intro E effect report fit
    simp only [List.map_cons, List.map_nil, List.flatMap_cons, List.flatMap_nil]
    rfl
  · exact ⟨entered, rfl, (List.append_nil _).symm, fun _ _ _ => rfl⟩

/-- A Statistics message is received in its feedcode's context, whatever is kept
and whatever the arithmetic is. -/
theorem exec_eq_receive {s : ExecState} {m : Nat} {msg : MyMessage} {r : FeedRef}
    (hmsg : s.heap.get? m = some msg) (href : msg.ref? = some r) :
    ∃ p : ExecState, p.self.res.json = Tracker.invalidAlerts r.feed ∧
      ∀ {E : Type} (effect : Effect → List E) report fit,
        (traced effect report fit).exec s m =
          ⟨(invalidReports r.feed).flatMap report ++ ((opening s r.feed).flatMap effect ++
            ((traced effect report fit).receive p (s.contextFor r.feed) r).events),
            ((traced effect report fit).receive p (s.contextFor r.feed) r).result⟩ := by
  obtain ⟨htype, hfeed⟩ := ref?_eq_some href
  let cleared := s.setRes s.self.res.clear
  have hderef : cleared.heap.deref m = .ok msg := Heap.deref_of_get? hmsg
  obtain ⟨e, hmap, hjson, henter⟩ := enter_spec (s := cleared) hmsg r
  have hcontextMap : e.contextMap = s.contextMap := hmap
  have hexec : ∀ {E : Type} (effect : Effect → List E) report fit,
      (traced effect report fit).exec s m =
        (traced effect report fit).execStatistics cleared m r := by
    intro E effect report fit
    simp only [exec, traced_lift, hderef, lift_ok_bind, htype, hfeed, cleared]
  cases hcontext : s.contextMap.getContext r.feed.feedcode with
  | some context =>
      refine ⟨e, hjson, ?_⟩
      intro E effect report fit
      rw [hexec, execStatistics, bind_of_ok (congrArg Traced.result (henter _ _ _)), henter]
      simp only [hcontextMap, ContextMap.has, hcontext, Option.isSome_some, if_true, pure_bind,
        opening, List.flatMap_nil, List.nil_append, ExecState.contextFor, Option.getD_some]
  | none =>
      have hopened : (DeficiencyProcessor.createContext e r.feed).contextMap.getContext
          r.feed.feedcode = some (openedContext r.feed) :=
        ContextMap.getContext_put_self _ _ _
      refine ⟨DeficiencyProcessor.createContext e r.feed, hjson, ?_⟩
      intro E effect report fit
      rw [hexec, execStatistics, bind_of_ok (congrArg Traced.result (henter _ _ _)), henter]
      simp only [hcontextMap, ContextMap.has, hcontext, Option.isSome_none, Bool.false_eq_true,
        if_false, opening, ExecState.contextFor, Option.getD_none]
      rw [bind_of_ok (createContext_result effect report fit e r.feed), createContext_events,
        hopened]

/-- A Price message is not looked at. -/
theorem exec_price_events {s : ExecState} {m : Nat} {msg : MyMessage}
    (hmsg : s.heap.get? m = some msg) (htype : msg.type = .price) :
    ((traced effect report fit).exec s m).events = [] := by
  have hderef : (s.setRes s.self.res.clear).heap.deref m = .ok msg := Heap.deref_of_get? hmsg
  simp only [exec, traced_lift, hderef, lift_ok_bind, htype, events_pure]

/-- The effects. -/
abbrev recording : Probe (Traced Effect Fault) := traced (fun e => [e]) (fun _ => []) fit

theorem recording_effect (e : Effect) : (recording fit).effect e = emit e := rfl

theorem recording_exec {s : ExecState} {m : Nat} {msg : MyMessage} {r : FeedRef}
    (hmsg : s.heap.get? m = some msg) (href : msg.ref? = some r) :
    ∃ p : ExecState, ∀ fit, (recording fit).exec s m = ⟨opening s r.feed ++
      ((recording fit).receive p (s.contextFor r.feed) r).events,
      ((recording fit).receive p (s.contextFor r.feed) r).result⟩ := by
  obtain ⟨p, _, hexec⟩ := exec_eq_receive hmsg href
  refine ⟨p, ?_⟩
  intro fit
  have hnone : (invalidReports r.feed).flatMap (fun _ => ([] : List Effect)) = [] :=
    List.flatMap_eq_nil_iff.mpr fun _ _ => rfl
  rw [hexec, hnone, List.flatMap_singleton', List.nil_append]

end Probe

end OLog
