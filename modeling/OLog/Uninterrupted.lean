import OLog.Interleaving
import OLog.Loops

/-!
If nobody else moves, the steps of one processor add up to the `exec` that the
sequential model takes for one step. So every order in which loops call `exec`
is one of the interleavings.
-/

namespace OLog

open Lib

section Frame

open DeficiencyProcessor

theorem release_withMap (s : ExecState) (cm : ContextMap) (x : Nat) :
    (s.withMap cm).release x = (s.release x).map (fun t => t.withMap cm) :=
  release_map (fun t => t.withMap cm) s x rfl rfl (fun _ _ => rfl)

theorem drain_withMap (sf : FeedRef) (l : List FeedRef)
    (hsorted : l.Pairwise (KeyLE FeedRef.exchangeTimestamp)) (et : Int) (context : Context)
    (s : ExecState) (cm : ContextMap) :
    drain sf l hsorted et context (s.withMap cm) =
      (drain sf l hsorted et context s).map (fun y => (y.1, y.2.1, y.2.2.withMap cm)) := by
  induction l generalizing et context s with
  | nil => rfl
  | cons top rest ih =>
      have hrelease : ∀ (et : Int) (context : Context) (s : ExecState),
          ((s.withMap cm).release top.addr >>= drain sf rest hsorted.of_cons et context) =
            (s.release top.addr >>= drain sf rest hsorted.of_cons et context).map
              (fun y => (y.1, y.2.1, y.2.2.withMap cm)) := by
        intro et context s
        rw [release_withMap]
        cases s.release top.addr with
        | error f => rfl
        | ok t => exact ih hsorted.of_cons et context t
      rcases lt_trichotomy top.exchangeTimestamp et with hlt | heq | hgt
      · simp only [drain_cons, hlt.ne, hlt, if_false, if_true]
        exact hrelease et context s
      · by_cases hbelow : turnoverBelow sf.feed context
        · simp only [drain_cons, heq, if_true, hbelow]
          exact hrelease _ _ (s.push _)
        · simp only [drain_cons, heq, if_true, hbelow, if_false]
          exact hrelease _ _ s
      · simp only [drain_cons, hgt.ne', hgt.not_gt, if_false]
        rfl

/-- `receive` fails or not whatever the other contexts are, and leaves them. -/
theorem receive_withMap (s : ExecState) (context : Context) (sf : FeedRef) :
    (∃ f, ∀ cm, receive (s.withMap cm) context sf = .error f) ∨
      ∃ (t : ExecState) (after : Context), ∀ cm : ContextMap,
        cm.getContext sf.feed.feedcode = some context →
        ∃ cm' : ContextMap, receive (s.withMap cm) context sf = .ok (t.withMap cm') ∧
          ∀ code, cm'.getContext code =
            if code = sf.feed.feedcode then some after else cm.getContext code := by
  simp only [receive_eq]
  rcases lt_trichotomy sf.exchangeTimestamp context.expectTimestamp with hlate | htime | hearly
  · right
    refine ⟨s.warn (.delay sf.feed.feedcode sf.exchangeTimestamp
      (delaySeconds (context.expectTimestamp - sf.exchangeTimestamp))), context, ?_⟩
    intro cm hcm
    refine ⟨cm, ?_, ?_⟩
    · simp only [hlate.ne', hlate, gt_iff_lt, if_false, if_true]
      rfl
    · intro code
      split_ifs with hcode
      · rw [hcode, hcm]
      · rfl
  · simp only [htime, if_true]
    let onTime : Context := {context with expectTimestamp := context.expectTimestamp + interval}
    cases hrelease : s.release sf.addr with
    | error f =>
        left
        refine ⟨f, fun cm => ?_⟩
        change (s.withMap (cm.put sf.feed.feedcode onTime)).release sf.addr = _
        rw [release_withMap, hrelease]
        rfl
    | ok t =>
        right
        refine ⟨t, onTime, fun cm _ => ⟨cm.put sf.feed.feedcode onTime, ?_, ?_⟩⟩
        · change (s.withMap (cm.put sf.feed.feedcode onTime)).release sf.addr = _
          rw [release_withMap, hrelease]
          rfl
        · exact fun code => ContextMap.getContext_put _ _ _ _
  · simp only [hearly.ne, hearly.not_gt, gt_iff_lt, if_false]
    simp only [drain_withMap]
    cases drain sf (context.queue.push sf).toList (context.queue.push sf).sorted
        context.expectTimestamp context s with
    | error f => exact Or.inl ⟨f, fun cm => rfl⟩
    | ok out =>
        obtain ⟨et, drained, t⟩ := out
        right
        by_cases hfull : drained.queue.size > queueLimit
        · refine ⟨t.warn (.miss sf.feed.feedcode et),
            {drained with expectTimestamp := et + interval}, fun cm _ => ⟨cm.put sf.feed.feedcode
              {drained with expectTimestamp := et + interval}, ?_, ?_⟩⟩
          · simp only [Except.map, ok_bind, hfull, if_true]
            rfl
          · exact fun code => ContextMap.getContext_put _ _ _ _
        · refine ⟨t, {drained with expectTimestamp := et}, fun cm _ => ⟨cm.put sf.feed.feedcode
              {drained with expectTimestamp := et}, ?_, ?_⟩⟩
          · simp only [Except.map, ok_bind, hfull, if_false]
            rfl
          · exact fun code => ContextMap.getContext_put _ _ _ _

end Frame

namespace Processors

variable {ι : Type} [DecidableEq ι]

/-- The pointers lead to the contexts of `cm`, one for each feedcode, and all of them
are initialised. -/
structure Represents (s : Processors ι) (cm : ContextMap) : Prop where
  recorded : ∀ code, s.recorded code = cm.getContext code
  initialised : ∀ code context, s.myMap.get? code = some context →
    ∃ c, s.contexts[context]? = some (some c)
  distinct : ∀ code code' context, s.myMap.get? code = some context →
    s.myMap.get? code' = some context → code = code'

/-- The processor `i` has done what `e` says, and nobody else has done anything. -/
structure Finished (s : Processors ι) (i : ι) (e : ExecState) (t : Processors ι) : Prop where
  heap : t.heap = e.heap
  self : t.self = Function.update s.self i e.self
  phase : t.phase = Function.update s.phase i .idle
  contexts : t.Represents e.contextMap

section Uninterrupted

variable {s : Processors ι} {i : ι} {cm : ContextMap} {sf : FeedRef}

omit [DecidableEq ι] in
theorem Represents.pointer (h : s.Represents cm) {code : String} {c : Context}
    (hc : cm.getContext code = some c) :
    ∃ context, s.myMap.get? code = some context ∧ s.contexts[context]? = some (some c) := by
  rw [← h.recorded] at hc
  obtain ⟨context, hget, hjoin⟩ := Option.bind_eq_some_iff.mp hc
  obtain ⟨c', hcontext⟩ := h.initialised code context hget
  rw [hcontext] at hjoin
  cases hjoin
  exact ⟨context, hget, hcontext⟩

omit [DecidableEq ι] in
theorem Represents.has_eq (h : s.Represents cm) (code : String) : s.has code = cm.has code := by
  rw [ContextMap.has, ← h.recorded, Processors.has]
  cases hget : s.myMap.get? code with
  | none =>
      rw [Processors.recorded, hget, Option.bind_none]
      rfl
  | some context =>
      obtain ⟨c, hcontext⟩ := h.initialised code context hget
      rw [recorded_of_get? hget, hcontext]
      rfl

omit [DecidableEq ι] in
/-- Writing through the pointer of a feedcode changes its context only. -/
theorem Represents.store (h : s.Represents cm) {code : String} {context : Nat}
    (hget : s.myMap.get? code = some context) {c : Context} {cm' : ContextMap}
    (hcm' : ∀ other, cm'.getContext other =
      if other = code then some c else cm.getContext other)
    {t : Processors ι} (hmap : t.myMap = s.myMap)
    (hcontexts : t.contexts = s.contexts.set context (some c)) : t.Represents cm' := by
  obtain ⟨_, hcontext⟩ := h.initialised code context hget
  have hlt : context < s.contexts.length := (List.getElem?_eq_some_iff.mp hcontext).1
  have hother : ∀ other context', s.myMap.get? other = some context' → other ≠ code →
      t.contexts[context']? = s.contexts[context']? := by
    intro other context' hget' hne
    rw [hcontexts, List.getElem?_set_ne]
    rintro rfl
    exact hne (h.distinct other code context hget' hget)
  have hself : t.contexts[context]? = some (some c) := by
    rw [hcontexts, List.getElem?_set_self hlt]
  refine ⟨?_, ?_, ?_⟩
  · intro other
    rw [hcm', ← h.recorded]
    split_ifs with hcode
    · subst hcode
      rw [recorded_of_get? (by rw [hmap, hget]), hself]
      rfl
    · unfold Processors.recorded
      rw [hmap]
      cases hget' : s.myMap.get? other with
      | none => rfl
      | some context' => rw [Option.bind_some, Option.bind_some, hother other context' hget' hcode]
  · intro other context' hget'
    rw [hmap] at hget'
    by_cases hcode : other = code
    · subst hcode
      obtain rfl : context = context' := Option.some.inj (hget.symm.trans hget')
      exact ⟨c, hself⟩
    · rw [hother other context' hget' hcode]
      exact h.initialised other context' hget'
  · rw [hmap]
    exact h.distinct

omit [DecidableEq ι] in
/-- A context that is created and initialised. -/
theorem Represents.create (h : s.Represents cm) (code : String) (c : Context) {cm' : ContextMap}
    (hcm' : ∀ other, cm'.getContext other =
      if other = code then some c else cm.getContext other)
    {t : Processors ι} (hmap : t.myMap = s.myMap.insert code s.contexts.length)
    (hcontexts : t.contexts = s.contexts ++ [some c]) : t.Represents cm' := by
  have hget : ∀ other context, t.myMap.get? other = some context →
      other = code ∧ context = s.contexts.length ∨ other ≠ code ∧
        s.myMap.get? other = some context ∧ context < s.contexts.length := by
    intro other context hget
    rw [hmap, OrdMap.get?_insert] at hget
    split_ifs at hget with hother
    · cases hget
      exact Or.inl ⟨hother, rfl⟩
    · obtain ⟨_, hcontext⟩ := h.initialised other context hget
      exact Or.inr ⟨hother, hget, (List.getElem?_eq_some_iff.mp hcontext).1⟩
  refine ⟨?_, ?_, ?_⟩
  · intro other
    rw [hcm', ← h.recorded]
    unfold Processors.recorded
    rw [hmap, hcontexts, OrdMap.get?_insert]
    split_ifs with hother
    · rw [Option.bind_some, List.getElem?_concat_length]
      rfl
    · cases hold : s.myMap.get? other with
      | none => rfl
      | some context =>
          obtain ⟨_, hcontext⟩ := h.initialised other context hold
          have hlt : context < s.contexts.length := (List.getElem?_eq_some_iff.mp hcontext).1
          rw [Option.bind_some, Option.bind_some, List.getElem?_append_left hlt]
  · intro other context hother
    rw [hcontexts]
    rcases hget other context hother with ⟨_, rfl⟩ | ⟨_, hold, hlt⟩
    · exact ⟨c, List.getElem?_concat_length⟩
    · rw [List.getElem?_append_left hlt]
      exact h.initialised other context hold
  · intro other other' context hother hother'
    rcases hget other context hother with ⟨rfl, rfl⟩ | ⟨_, hold, hlt⟩ <;>
      rcases hget other' _ hother' with ⟨rfl, heq⟩ | ⟨_, hold', hlt'⟩
    · rfl
    · omega
    · omega
    · exact h.distinct other other' context hold hold'

/-- Both fail with the same fault, or both succeed and the processor has done
what the atomic step does. -/
def Mirrors (s : Processors ι) (i : ι) (atomic : Except Fault ExecState)
    (result : Except Fault (Processors ι)) : Prop :=
  (∃ f, atomic = .error f ∧ result = .error f) ∨
    ∃ e t, atomic = .ok e ∧ result = .ok t ∧ Finished s i e t

/-- From the second `getContext` on. -/
theorem Represents.receives (h : s.Represents cm) (hphase : s.phase i = .present sf)
    {c : Context} (hc : cm.getContext sf.feed.feedcode = some c) :
    Mirrors s i (DeficiencyProcessor.receive ⟨s.heap, cm, s.self i⟩ c sf)
      (s.next i {} >>= fun u => u.next i {}) := by
  obtain ⟨context, hget, hcontext⟩ := h.pointer hc
  have hpointer : s.next i {} = .ok (s.goTo i (.holding sf context)) :=
    next_present hphase hget {}
  have hholding : (s.goTo i (.holding sf context)).phase i = .holding sf context :=
    Function.update_self ..
  have hloaded : (s.goTo i (.holding sf context)).load {} context = .ok c := by
    simp only [load, goTo, hcontext]
    rfl
  rw [hpointer, ok_bind]
  simp only [next, hholding, hloaded, ok_bind]
  rcases receive_withMap ⟨s.heap, cm, s.self i⟩ c sf with ⟨f, hf⟩ | ⟨e, after, he⟩
  · refine Or.inl ⟨f, hf cm, ?_⟩
    exact congrArg (· >>= _) (hf (ContextMap.empty.put sf.feed.feedcode c))
  · obtain ⟨cm', hcm', hget'⟩ := he cm hc
    obtain ⟨cm₁, hcm₁, hget₁⟩ := he (ContextMap.empty.put sf.feed.feedcode c)
      (ContextMap.getContext_put_self _ _ _)
    refine Or.inr ⟨e.withMap cm', _, hcm', congrArg (· >>= _) hcm₁, rfl, rfl, ?_, ?_⟩
    · exact Function.update_idem ..
    · refine h.store hget hget' rfl ?_
      simp [goTo, Processors.store, put, ExecState.withMap, hget₁]

/-- From `create` to the end of the first critical section. -/
theorem Represents.opens (h : s.Represents cm) (hphase : s.phase i = .absent sf) :
    ∃ t, (s.next i {} >>= fun u => u.next i {} >>= fun v => v.next i {}) = .ok t ∧
      t.heap = s.heap ∧ t.self = s.self ∧ t.phase = Function.update s.phase i (.present sf) ∧
        t.Represents ((cm.create {} sf.feed.feedcode).put sf.feed.feedcode
          (openedContext sf.feed)) := by
  let p := s.contexts.length
  let created := (s.create sf.feed.feedcode).goTo i (.created sf)
  let pointed := created.goTo i (.opening sf p)
  have hcreate : s.next i {} = .ok created := next_absent hphase {}
  have hpointer : created.next i {} = .ok pointed :=
    next_created (Function.update_self ..) (OrdMap.get?_insert_self _ _ _) {}
  have hopen : pointed.next i {} =
      .ok ((pointed.store p (openedContext sf.feed)).goTo i (.present sf)) :=
    next_opening (c := none) (Function.update_self ..)
      (List.getElem?_concat_length (l := s.contexts)) {}
  rw [hcreate, ok_bind, hpointer, ok_bind, hopen]
  refine ⟨_, rfl, rfl, rfl, ?_, ?_⟩
  · change Function.update (Function.update (Function.update s.phase _ _) _ _) _ _ = _
    rw [Function.update_idem, Function.update_idem]
  · refine h.create sf.feed.feedcode (openedContext sf.feed) ?_ rfl ?_
    · intro other
      rw [ContextMap.getContext_put]
      split_ifs with hother
      · rfl
      · rw [ContextMap.create, ContextMap.getContext_put, if_neg hother]
    · change (s.contexts ++ [none]).set s.contexts.length _ = _
      rw [List.set_append_right _ _ le_rfl, Nat.sub_self]
      rfl

/-- The steps of a processor that has begun with a message count from there. -/
theorem Mirrors.of_begun {t : Processors ι} {atomic : Except Fault ExecState}
    {result : Except Fault (Processors ι)} (h : Mirrors t i atomic result) {e : DeficiencyProcessor}
    {phase : Phase} (hself : t.self = Function.update s.self i e)
    (hphase : t.phase = Function.update s.phase i phase) : Mirrors s i atomic result := by
  rcases h with hfault | ⟨e', u, hatomic, hresult, hdone⟩
  · exact Or.inl hfault
  · refine Or.inr ⟨e', u, hatomic, hresult, hdone.heap, ?_, ?_, hdone.contexts⟩
    · rw [hdone.self, hself, Function.update_idem]
    · rw [hdone.phase, hphase, Function.update_idem]

/-- From `has` to the end. -/
theorem Represents.finishes (h : s.Represents cm)
    (hphase : s.phase i = if s.has sf.feed.feedcode then .present sf else .absent sf) :
    ∃ n, Mirrors s i
      (let e : ExecState := ⟨s.heap, cm, s.self i⟩
       let e := if e.contextMap.has sf.feed.feedcode then e
         else DeficiencyProcessor.createContext e sf.feed
       match e.contextMap.getContext sf.feed.feedcode with
       | none => throw .nullContext
       | some context => DeficiencyProcessor.receive e context sf)
      ((List.replicate n (Action.next i {})).foldlM step s) := by
  cases hhas : cm.has sf.feed.feedcode with
  | true =>
      obtain ⟨c, hc⟩ := Option.isSome_iff_exists.mp hhas
      rw [h.has_eq, hhas, if_pos rfl] at hphase
      refine ⟨2, ?_⟩
      have hmirrors := h.receives hphase hc
      simpa [hhas, hc, step] using hmirrors
  | false =>
      rw [h.has_eq, hhas, if_neg Bool.false_ne_true] at hphase
      obtain ⟨t, hopens, hheap, hself, hpresent, hrep⟩ := h.opens hphase
      refine ⟨5, ?_⟩
      have hnext : t.phase i = .present sf := by rw [hpresent, Function.update_self]
      have hmirrors := hrep.receives hnext (ContextMap.getContext_put_self _ _ _)
      have hsteps : (List.replicate 5 (Action.next i {})).foldlM step s =
          t.next i {} >>= fun u => u.next i {} := by
        rw [← ok_bind (ε := Fault) t (fun v => v.next i {} >>= fun u => u.next i {}), ← hopens]
        simp [List.replicate, step]
      have hatomic : DeficiencyProcessor.createContext ⟨s.heap, cm, s.self i⟩ sf.feed =
          ⟨t.heap, (cm.create {} sf.feed.feedcode).put sf.feed.feedcode (openedContext sf.feed),
            t.self i⟩ := by
        rw [hheap, hself]
        rfl
      rw [hsteps]
      simp only [hhas, Bool.false_eq_true, if_false, hatomic, ContextMap.getContext_put_self]
      exact hmirrors.of_begun (hself.trans (Function.update_eq_self i s.self).symm) hpresent

/-- If nobody else moves, `exec` is the atomic step that the sequential model
takes it for. -/
theorem Represents.exec_uninterrupted (h : s.Represents cm) (hidle : s.phase i = .idle)
    (incoming : Incoming) :
    ∃ n, Mirrors s i
      (DeficiencyProcessor.exec ⟨(s.heap.alloc incoming.toMessage).2, cm, s.self i⟩ s.heap.brk)
      ((Action.begin i incoming :: List.replicate n (.next i {})).foldlM step s) := by
  obtain ⟨message, feed⟩ := incoming
  let consumed := (s.heap.alloc (Incoming.toMessage ⟨message, feed⟩)).2
  have hmsg : consumed.get? s.heap.brk = some (Incoming.toMessage ⟨message, feed⟩
      (s.heap.brk + 1)) := Heap.alloc_get?_new _ _
  let cleared : ExecState := ExecState.setRes ⟨consumed, cm, s.self i⟩ (s.self i).res.clear
  cases feed with
  | price pf =>
      have hatomic : DeficiencyProcessor.exec ⟨consumed, cm, s.self i⟩ s.heap.brk = .ok cleared :=
        exec_price hmsg rfl
      refine ⟨0, Or.inr ⟨cleared, s.put i cleared, hatomic, ?_, rfl, rfl, ?_, h.recorded,
        h.initialised, h.distinct⟩⟩
      · simp only [List.replicate_zero, List.foldlM_cons, List.foldlM_nil, step, hidle, begin]
        rfl
      · rw [← hidle, Function.update_eq_self]
        rfl
  | statistics feed =>
      let sf : FeedRef := ⟨s.heap.brk + 1, feed⟩
      obtain ⟨e, he⟩ := DeficiencyProcessor.enter_withMap (s := cleared) hmsg sf
      let begun := (s.put i e).goTo i
        (if s.has feed.feedcode then .present sf else .absent sf)
      have hatomic : DeficiencyProcessor.exec ⟨consumed, cm, s.self i⟩ s.heap.brk =
          DeficiencyProcessor.execStatistics (cleared.withMap cm) s.heap.brk sf :=
        exec_of_ref hmsg (toMessage_statistics_ref? message feed _)
      have hbegin : s.step (.begin i ⟨message, .statistics feed⟩) = .ok begun := by
        simp only [step, hidle, begin]
        exact congrArg (· >>= _) (he ContextMap.empty)
      have hrep : begun.Represents cm := ⟨h.recorded, h.initialised, h.distinct⟩
      have hself : begun.self i = e.self := Function.update_self ..
      have hnext : begun.phase i =
          if begun.has sf.feed.feedcode then .present sf else .absent sf := Function.update_self ..
      obtain ⟨n, hmirrors⟩ := hrep.finishes hnext
      rw [hself] at hmirrors
      refine ⟨n, ?_⟩
      rw [List.foldlM_cons, hbegin, ok_bind]
      change Mirrors s i (DeficiencyProcessor.exec ⟨consumed, cm, s.self i⟩ s.heap.brk) _
      rw [hatomic, DeficiencyProcessor.execStatistics_eq, he, ok_bind]
      exact hmirrors.of_begun rfl rfl

end Uninterrupted

omit [DecidableEq ι] in
theorem start_represents : (start : Processors ι).Represents ContextMap.empty :=
  ⟨fun _ => rfl, fun _ _ h => (by cases h), fun _ _ _ h => (by cases h)⟩

/-- Every order of atomic calls is one of the interleavings. -/
theorem run_of_loops {steps : List (ι × Incoming)} {l : Loops ι} (hrun : Loops.run steps = .ok l) :
    ∃ actions t, run actions = .ok t ∧ t.heap = l.heap ∧ t.self = l.self ∧
      t.phase = (fun _ => .idle) ∧ t.Represents l.contextMap := by
  refine foldlM_ok_history (I := fun _ (l : Loops ι) => ∃ actions t, run actions = .ok t ∧
    t.heap = l.heap ∧ t.self = l.self ∧ t.phase = (fun _ => .idle) ∧ t.Represents l.contextMap)
    hrun ⟨[], start, rfl, rfl, rfl, rfl, start_represents⟩ ?_
  rintro past ⟨i, incoming⟩ u v _ ⟨actions, s, hs, hheap, hself, hphase, hrep⟩ hstep
  obtain ⟨e, he, hv⟩ := bind_eq_ok.mp hstep
  cases hv
  obtain ⟨n, hmirrors⟩ := hrep.exec_uninterrupted (congrFun hphase i) incoming
  rw [hheap, hself] at hmirrors
  rcases hmirrors with ⟨f, hf, _⟩ | ⟨e', t, he', ht, hdone⟩
  · have hfault := he.symm.trans hf
    cases hfault
  · have hsame : e' = e := by
      have := he'.symm.trans he
      cases this
      rfl
    subst hsame
    refine ⟨actions ++ .begin i incoming :: List.replicate n (.next i {}), t, ?_, hdone.heap, ?_,
      ?_, hdone.contexts⟩
    · unfold run at hs ⊢
      rw [List.foldlM_append, hs, ok_bind]
      exact ht
    · rw [hdone.self, hself]
      rfl
    · rw [hdone.phase, hphase]
      exact Function.update_eq_self i _

end Processors

end OLog
