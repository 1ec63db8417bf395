import OLog.Instrumented
import OLog.Loops

/-!
The mutex of a context, watched over a call of `exec`. The way out of the
drain loop with feeds left unlocks the context and then falls through to the
code after the loop, which goes on to write the expected timestamp and unlocks
again. So the discipline is kept exactly if an early feed leaves nothing
waiting; and a call that dies on a null message dies with the mutex held.
-/

namespace OLog

open Lib Traced

/-- Whether the mutex is held after the events, if it was `held` before and no
event broke the rules: locked when free, unlocked and accessed when held. -/
def watch (held : Bool) : List Effect → Option Bool
  | [] => some held
  | .lock :: rest => if held then none else watch true rest
  | .unlock :: rest => if held then watch false rest else none
  | .read _ :: rest => if held then watch held rest else none
  | .write _ :: rest => if held then watch held rest else none
  | .computes _ :: rest => watch held rest

/-- From free to free without breaking a rule. -/
def Disciplined (events : List Effect) : Prop := watch false events = some false

instance (events : List Effect) : Decidable (Disciplined events) := by
  unfold Disciplined
  infer_instance

theorem watch_append (held : Bool) (first second : List Effect) :
    watch held (first ++ second) = (watch held first).bind (fun h => watch h second) := by
  induction first generalizing held with
  | nil => rfl
  | cons event rest ih =>
      cases event <;> cases held <;> simp [watch, ih]

/-- With the mutex held before: it is held afterwards if the computation fails,
and as `held` says if it returns. -/
def Leaves {α : Type} (x : Traced Effect Fault α) (held : α → Bool) : Prop :=
  watch true x.events = some (match x.result with
    | .ok a => held a
    | .error _ => true)

/-- The mutex stays held, whatever comes out. -/
def Keeps {α : Type} (x : Traced Effect Fault α) : Prop := Leaves x (fun _ => true)

section Rules

variable {α β : Type}

theorem keeps_pure (a : α) : Keeps (pure a : Traced Effect Fault α) := rfl

theorem keeps_lift (x : Except Fault α) : Keeps (lift x) := by
  cases x <;> rfl

theorem keeps_read (fit : Int → Int) (member : Member) :
    Keeps ((Probe.recording fit).effect (.read member)) := rfl

theorem keeps_write (fit : Int → Int) (member : Member) :
    Keeps ((Probe.recording fit).effect (.write member)) := rfl

theorem keeps_report (fit : Int → Int) (report : Report) :
    Keeps ((Probe.recording fit).report report) := rfl

theorem keeps_compute (fit : Int → Int) (value : Int) :
    Keeps ((Probe.recording fit).compute value) := rfl

theorem leaves_pure {a : α} {held : α → Bool} (h : held a = true) :
    Leaves (pure a : Traced Effect Fault α) held :=
  congrArg some h.symm

theorem Keeps.bind {x : Traced Effect Fault α} (hx : Keeps x) {f : α → Traced Effect Fault β}
    {held : β → Bool} (hf : ∀ a, Leaves (f a) held) : Leaves (x >>= f) held := by
  have hwatch : watch true x.events = some true := by
    unfold Keeps Leaves at hx
    cases hresult : x.result <;> simpa [hresult] using hx
  cases hresult : x.result with
  | error e =>
      rw [bind_of_error hresult]
      exact hwatch
  | ok a =>
      rw [bind_of_ok hresult]
      unfold Leaves
      rw [watch_append, hwatch]
      exact hf a

theorem leaves_ite {c : Prop} [Decidable c] {x y : Traced Effect Fault α} {held : α → Bool}
    (hx : c → Leaves x held) (hy : ¬ c → Leaves y held) :
    Leaves (if c then x else y) held := by
  split_ifs with hc
  · exact hx hc
  · exact hy hc

end Rules

namespace Probe

variable (fit : Int → Int)

theorem keeps_releaseTop (top : FeedRef) (s : ExecState) :
    Keeps ((recording fit).releaseTop top s) :=
  (keeps_read fit .queue).bind fun _ => (keeps_lift _).bind fun _ =>
    (keeps_read fit .queue).bind fun _ => (keeps_write fit .queue).bind fun _ => keeps_pure _

theorem keeps_reportContinuity (sf : FeedRef) (tops : List FeedRef) (context : Context)
    (s : ExecState) : Keeps ((recording fit).reportContinuity sf tops context s) :=
  (keeps_report fit _).bind fun _ => keeps_pure _

theorem keeps_detectContinuity (sf : FeedRef) (tops : List FeedRef) (context : Context)
    (s : ExecState) : Keeps ((recording fit).detectContinuity sf tops context s) := by
  have hreport := keeps_reportContinuity fit sf tops context s
  refine (keeps_read fit .preValue).bind fun _ => leaves_ite (fun _ => hreport) fun _ => ?_
  refine (keeps_read fit .preVolume).bind fun _ => leaves_ite (fun _ => hreport) fun _ => ?_
  exact (keeps_write fit .preValue).bind fun _ =>
    (keeps_write fit .preVolume).bind fun _ => keeps_pure _

/-- The loop ends with the mutex held exactly if no feed is left. -/
theorem drain_leaves (sf : FeedRef) (waiting : List FeedRef)
    (hsorted : waiting.Pairwise (KeyLE FeedRef.exchangeTimestamp)) (et : Int) (context : Context)
    (s : ExecState) :
    Leaves ((recording fit).drain sf waiting hsorted et context s)
      (fun out => out.2.1.queue.toList.isEmpty) := by
  induction waiting generalizing et context s with
  | nil => exact (keeps_read fit .queue).bind fun _ => leaves_pure rfl
  | cons top rest ih =>
      refine (keeps_read fit .queue).bind fun _ => (keeps_read fit .queue).bind fun _ => ?_
      refine leaves_ite (fun _ => ?_) fun _ => leaves_ite (fun _ => ?_) fun _ => ?_
      · refine (keeps_detectContinuity fit sf _ context s).bind fun pair => ?_
        refine (keeps_releaseTop fit top _).bind fun _ => (keeps_compute fit _).bind fun _ => ?_
        exact ih hsorted.of_cons _ _ _
      · exact (keeps_releaseTop fit top s).bind fun _ => ih hsorted.of_cons _ _ _
      · rfl

/-- After the loop the mutex has to be held, and it is given back. -/
theorem watch_afterDrain (feedcode : String) (context : Context) (s : ExecState) :
    watch context.queue.toList.isEmpty ((recording fit).afterDrain feedcode context s).events =
      if context.queue.toList.isEmpty then some false else none := by
  cases hqueue : context.queue.toList with
  | nil =>
      have hsize : ¬ context.queue.size > queueLimit := by
        simp [MinQueue.size, hqueue]
      simp [afterDrain, recording_effect, hsize, watch]
  | cons top rest => rfl

theorem receive_watch (s : ExecState) (context : Context) (sf : FeedRef) :
    watch false ((recording fit).receive s context sf).events = watch true
      (if context.expectTimestamp = sf.exchangeTimestamp then
          (recording fit).receiveOnTime s context sf
        else if context.expectTimestamp > sf.exchangeTimestamp then
          (recording fit).receiveLate s context sf
        else (recording fit).receiveEarly s context sf).events := rfl

theorem receive_body (s : ExecState) (context : Context) (sf : FeedRef) :
    ((recording fit).receive s context sf).result =
      (if context.expectTimestamp = sf.exchangeTimestamp then
          (recording fit).receiveOnTime s context sf
        else if context.expectTimestamp > sf.exchangeTimestamp then
          (recording fit).receiveLate s context sf
        else (recording fit).receiveEarly s context sf).result := rfl

theorem receiveOnTime_watch (s : ExecState) (context : Context) (sf : FeedRef) :
    watch true ((recording fit).receiveOnTime s context sf).events = some false ↔
      ∃ t, ((recording fit).receiveOnTime s context sf).result = .ok t := by
  let released := (s.putContext sf.feed.feedcode {context with
    expectTimestamp := fit (context.expectTimestamp + interval)}).release sf.addr
  let finish : Traced Effect Fault ExecState := do
    let s ← Traced.lift released
    emit .unlock
    pure s
  have hwatch : watch true ((recording fit).receiveOnTime s context sf).events =
      watch true finish.events := rfl
  have hresult : ((recording fit).receiveOnTime s context sf).result = finish.result := rfl
  rw [hwatch, hresult]
  simp only [finish]
  cases released <;> simp [watch, ok_bind]

theorem receiveEarly_watch (s : ExecState) (context : Context) (sf : FeedRef) :
    watch true ((recording fit).receiveEarly s context sf).events = some false ↔
      ∃ out, ((recording fit).drainPushed s context sf).result = .ok out ∧
        out.2.1.queue.toList = [] := by
  have hleaves : watch true ((recording fit).drainPushed s context sf).events = _ :=
    drain_leaves fit sf _ _ _ _ s
  have hreads : watch true ((recording fit).receiveEarly s context sf).events = watch true
      ((recording fit).drainPushed s context sf >>= fun out =>
        (recording fit).afterDrain sf.feed.feedcode {out.2.1 with expectTimestamp := out.1}
          out.2.2).events := rfl
  rw [hreads]
  cases hresult : ((recording fit).drainPushed s context sf).result with
  | error f =>
      rw [bind_of_error hresult, hleaves]
      unfold drainPushed at hresult
      simp [hresult]
  | ok out =>
      have hwatch : watch true ((recording fit).drainPushed s context sf).events =
          some out.2.1.queue.toList.isEmpty := by
        unfold drainPushed at hresult
        rw [hleaves, hresult]
      have hafter := watch_afterDrain fit sf.feed.feedcode
        {out.2.1 with expectTimestamp := out.1} out.2.2
      rw [bind_of_ok hresult, watch_append, hwatch, Option.bind_some]
      refine (iff_of_eq (congrArg (· = some false) hafter)).trans ?_
      simp

theorem receiveEarly_ok (s : ExecState) (context : Context) (sf : FeedRef) :
    (∃ t, ((recording fit).receiveEarly s context sf).result = .ok t) ↔
      ∃ out, ((recording fit).drainPushed s context sf).result = .ok out := by
  have hafter : ∀ out : Int × Context × ExecState, ∃ t, ((recording fit).afterDrain sf.feed.feedcode
      {out.2.1 with expectTimestamp := out.1} out.2.2).result = .ok t := by
    intro out
    unfold afterDrain
    simp only [result_bind, effect_result, report_result, ok_bind, result_ite, compute_result,
      result_pure]
    split_ifs <;> exact ⟨_, rfl⟩
  have hresult : ((recording fit).receiveEarly s context sf).result =
      ((recording fit).drainPushed s context sf).result >>= fun out =>
        ((recording fit).afterDrain sf.feed.feedcode {out.2.1 with expectTimestamp := out.1}
          out.2.2).result := by
    simp only [receiveEarly, result_bind, effect_result, ok_bind]
  rw [hresult]
  constructor
  · rintro ⟨t, ht⟩
    obtain ⟨out, hout, _⟩ := bind_eq_ok.mp ht
    exact ⟨out, hout⟩
  · rintro ⟨out, hout⟩
    obtain ⟨t, ht⟩ := hafter out
    exact ⟨t, bind_eq_ok.mpr ⟨out, hout, ht⟩⟩

/-- A call of `receive` is disciplined exactly if it returns and, the feed
being early, nothing waits afterwards. -/
theorem receive_disciplined_iff (s : ExecState) (context : Context) (sf : FeedRef) :
    Disciplined ((recording id).receive s context sf).events ↔
      (∃ t, DeficiencyProcessor.receive s context sf = .ok t) ∧
        (context.expectTimestamp < sf.exchangeTimestamp →
          left (context.queue.push sf).toList
            (drainGap (context.queue.push sf).toList context.expectTimestamp) = []) := by
  unfold Disciplined
  rw [receive_watch, ← receive_result (fun e => [e]) (fun _ => []), receive_body]
  rcases lt_trichotomy sf.exchangeTimestamp context.expectTimestamp with hlate | htime | hearly
  · rw [if_neg hlate.ne', if_pos hlate]
    exact ⟨fun _ => ⟨⟨_, rfl⟩, fun hearly => absurd hearly hlate.not_gt⟩, fun _ => rfl⟩
  · rw [if_pos htime.symm, receiveOnTime_watch]
    exact ⟨fun hok => ⟨hok, fun hearly => absurd htime hearly.ne'⟩, And.left⟩
  · rw [if_neg hearly.ne, if_neg hearly.not_gt, receiveEarly_watch, receiveEarly_ok]
    have hleft : ∀ out, ((recording id).drainPushed s context sf).result = .ok out →
        out.2.1.queue.toList = left (context.queue.push sf).toList
          (drainGap (context.queue.push sf).toList context.expectTimestamp) := by
      intro out hout
      rw [drainPushed, drain_result] at hout
      exact (drain_eq_ok _ _ _ _ _ _ hout).2
    constructor
    · rintro ⟨out, hout, hempty⟩
      exact ⟨⟨out, hout⟩, fun _ => (hleft out hout).symm.trans hempty⟩
    · rintro ⟨⟨out, hout⟩, hempty⟩
      exact ⟨out, hout, (hleft out hout).trans (hempty hearly)⟩

theorem opening_watch (s : ExecState) (sf : StatisticsFeed) :
    watch false (opening s sf) = some false := by
  unfold opening
  split_ifs <;> rfl

end Probe

namespace Loops

variable {ι : Type}

/-- An early feed finds, with the waiting ones, every tick from the expected one
up to the last of them. -/
def NoneBehindGap (s : Loops ι) (step : ι × Incoming) : Prop :=
  ∀ sf, step.2.feed = .statistics sf → ∀ context ∈ s.contextMap.getContext sf.feedcode,
    context.expectTimestamp < sf.exchangeTimestamp →
      ∀ f ∈ sf ::ₘ context.view.waiting, context.view.NoGapUpTo sf f.exchangeTimestamp

/-- A call's record. -/
def record (s : Loops ι) (step : ι × Incoming) : List Effect :=
  ((Probe.recording id).exec (s.called step) s.heap.brk).events

theorem left_push_eq_nil_iff (context : Context) (r : FeedRef) :
    left (context.queue.push r).toList
        (drainGap (context.queue.push r).toList context.expectTimestamp) = [] ↔
      ∀ f ∈ r.feed ::ₘ context.view.waiting, context.view.NoGapUpTo r.feed f.exchangeTimestamp := by
  have hkept : left (context.queue.push r).toList
      (drainGap (context.queue.push r).toList context.expectTimestamp) = [] ↔
        context.view.kept r.feed = 0 := by
    rw [drainGap_push, ← left_push, Multiset.coe_eq_zero, List.map_eq_nil_iff]
  rw [hkept, Tracker.kept, Multiset.filter_eq_nil]
  refine forall₂_congr fun f hf => ?_
  rw [Tracker.noGapUpTo_iff (mem_timestamps.mpr ⟨f, hf, rfl⟩), not_lt]

/-- The context in which a feed is received, if there was one before. -/
theorem noneBehindGap_iff (s : Loops ι) {step : ι × Incoming} {sf : StatisticsFeed}
    (hfeed : step.2.feed = .statistics sf) :
    s.NoneBehindGap step ↔
      (((s.called step).contextFor sf).expectTimestamp < sf.exchangeTimestamp →
        ∀ f ∈ sf ::ₘ ((s.called step).contextFor sf).view.waiting,
          ((s.called step).contextFor sf).view.NoGapUpTo sf f.exchangeTimestamp) := by
  have hcontexts : (s.called step).contextMap = s.contextMap := rfl
  unfold NoneBehindGap ExecState.contextFor
  rw [hcontexts, hfeed]
  cases hcontext : s.contextMap.getContext sf.feedcode with
  | none =>
      constructor
      · intro _ hearly
        exact absurd hearly (lt_irrefl sf.exchangeTimestamp)
      · rintro _ sf' hsf' context hsome
        cases hsf'
        rw [hcontext] at hsome
        cases hsome
  | some context =>
      constructor
      · intro h
        exact h sf rfl context hcontext
      · rintro h sf' hsf' context' hsome
        cases hsf'
        rw [hcontext] at hsome
        cases hsome
        exact h

section Runs

variable [DecidableEq ι]

/-- In every state that loops sharing their contexts can reach, and for every
call: the mutex is locked and unlocked in turns, from free to free, with every
access in between, exactly if the call pops no other loop's feed and leaves
none behind a missing tick. -/
theorem lock_discipline_iff {steps : List (ι × Incoming)} {s : Loops ι}
    (hrun : run steps = .ok s) (step : ι × Incoming) :
    Disciplined (s.record step) ↔ s.OwnFeeds step ∧ s.NoneBehindGap step := by
  have hinv := run_inv hrun
  have hok : (∃ t, DeficiencyProcessor.exec (s.called step) s.heap.brk = .ok t) ↔
      s.OwnFeeds step := by
    constructor
    · rintro ⟨t, ht⟩
      exact hinv.ownFeeds_of_ok ht
    · intro hown
      obtain ⟨t, ht, _⟩ := (hinv.exec_iff step).1 hown
      obtain ⟨e, he, _⟩ := bind_eq_ok.mp ht
      exact ⟨e, he⟩
  rw [← hok]
  obtain ⟨i, message, feed⟩ := step
  cases feed with
  | price pf =>
      have hrecord : s.record (i, ⟨message, .price pf⟩) = [] :=
        Probe.exec_price_events _ _ _ (called_new s (i, ⟨message, .price pf⟩)) rfl
      have hexec := exec_price (called_new s (i, ⟨message, .price pf⟩)) rfl
      rw [hrecord]
      constructor
      · intro _
        refine ⟨⟨_, hexec⟩, ?_⟩
        intro sf hsf
        cases hsf
      · intro _
        rfl
  | statistics sf =>
      have href := toMessage_statistics_ref? message sf (s.heap.brk + 1)
      obtain ⟨p, hp⟩ :=
        Probe.recording_exec (called_new s (i, ⟨message, .statistics sf⟩)) href
      have hresult : (((Probe.recording id).exec _ _).result) = _ :=
        Probe.exec_result _ _ (s.called (i, ⟨message, .statistics sf⟩)) s.heap.brk
      rw [hp id] at hresult
      rw [noneBehindGap_iff s rfl, ← hresult, Probe.receive_result]
      unfold Disciplined record
      rw [hp id, watch_append, Probe.opening_watch, Option.bind_some]
      exact (Probe.receive_disciplined_iff p _ _).trans
        (and_congr_right fun _ => imp_congr_right fun _ => left_push_eq_nil_iff _ _)

/-- One loop: a feed that is on time. -/
theorem lock_discipline_on_time :
    ∃ s, run [((), tickMessage 0)] = .ok s ∧ Disciplined (s.record ((), tickMessage 1)) ∧
      s.OwnFeeds ((), tickMessage 1) ∧ s.NoneBehindGap ((), tickMessage 1) := by
  obtain ⟨s, hs, hdisciplined⟩ : ∃ s, run [((), tickMessage 0)] = .ok s ∧
      Disciplined (s.record ((), tickMessage 1)) := by
    apply exists_ok_of_check
    decide +kernel
  exact ⟨s, hs, hdisciplined, (lock_discipline_iff hs ((), tickMessage 1)).mp hdisciplined⟩

/-- One loop: a feed that is early. The expected timestamp is written, and the
queue read, after the mutex has been given back, and it is unlocked twice. -/
theorem unlocked_in_the_loop :
    ∃ s, run [((), tickMessage 0)] = .ok s ∧
      s.record ((), tickMessage 2) = [.lock, .read .expectTimestamp, .read .queue, .write .queue,
        .read .queue, .read .queue, .unlock, .write .expectTimestamp, .read .queue, .unlock] ∧
      ¬ Disciplined (s.record ((), tickMessage 2)) := by
  apply exists_ok_of_check
  decide +kernel

end Runs

end Loops

end OLog
