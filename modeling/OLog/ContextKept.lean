import OLog.Interleaving

/-!
What becomes of the contexts that processors share. `create` replaces a context
that another processor has created since `has` was called, and the section that
initialises a context overwrites what another processor has recorded in it
since `create`. So nothing is lost exactly if no processor calls `has` for a
feedcode while another one is about to create its context or to initialise it.
-/

namespace OLog

open Lib

namespace Phase

theorem feedcode?_of_opens? {phase : Phase} {code : String} (h : phase.opens? = some code) :
    phase.feedcode? = some code := by
  cases phase <;> first | exact h | cases h

theorem feedcode?_of_pointer? {phase : Phase} {sf : FeedRef} {context : Nat}
    (h : phase.pointer? = some (sf, context)) :
    phase.feedcode? = some sf.feed.feedcode := by
  cases phase <;> cases h <;> rfl

end Phase

namespace Processors

variable {ι : Type}

/-- The steps with which processors go on with what they have begun. -/
def finish (moves : List (ι × ContextMemory)) : List (Action ι) :=
  moves.map (fun move => .next move.1 move.2)

/-- When `has` is called, no other processor is about to create the context or to
initialise it. -/
def Alone (s : Processors ι) (action : Action ι) : Prop :=
  ∀ i incoming sf, action = .begin i incoming → s.phase i = .idle →
    incoming.feed = .statistics sf → ∀ j, (s.phase j).opens? ≠ some sf.feedcode

/-- Whatever a processor writes, it writes into the context that the map leads to. -/
def Attached (s : Processors ι) : Prop :=
  ∀ i sf context, (s.phase i).pointer? = some (sf, context) →
    s.myMap.get? sf.feed.feedcode = some context

/-- A context in the map stays there. -/
def Extends (s t : Processors ι) : Prop :=
  ∀ feedcode context, s.myMap.get? feedcode = some context →
    t.myMap.get? feedcode = some context

end Processors

/-- An early feed with nothing to wait with leaves the expected timestamp. -/
theorem Tracker.receive_first {tracker : Tracker} {sf : StatisticsFeed}
    (hempty : tracker.waiting = 0) (hearly : tracker.expectTimestamp < sf.exchangeTimestamp) :
    (tracker.receive sf).1.expectTimestamp = tracker.expectTimestamp := by
  have hnotMem : tracker.expectTimestamp ∉ timestamps (sf ::ₘ tracker.waiting) := by
    rw [mem_timestamps, hempty]
    rintro ⟨f, hf, hts⟩
    obtain rfl := Multiset.mem_singleton.mp hf
    omega
  have hgap : tracker.gap sf = tracker.expectTimestamp := by
    rw [gap, run, gapIndex_of_notMem interval_pos hnotMem, tick_zero]
  have hkept : (tracker.kept sf).card ≤ queueLimit := by
    have hle := Multiset.card_le_card
      (Multiset.filter_le (fun f => tracker.gap sf < f.exchangeTimestamp) (sf ::ₘ tracker.waiting))
    have hone : (sf ::ₘ tracker.waiting).card = 1 := by
      rw [hempty]
      exact Multiset.card_singleton sf
    have hlimit : queueLimit = 120 := rfl
    exact hle.trans (by omega)
  rw [receive_early_wait hearly hkept]
  exact hgap

/-- A feed can be received in a context whose members nobody has set. -/
theorem receive_unset (p : ExecState) {memory : ContextMemory} {r : FeedRef}
    (hearly : memory.expectTimestamp < r.exchangeTimestamp) :
    ∃ t, DeficiencyProcessor.receive p (Context.fresh memory) r = .ok t := by
  have hpopped : popped ((Context.fresh memory).queue.push r).toList
      (drainGap ((Context.fresh memory).queue.push r).toList memory.expectTimestamp) = [] := by
    have hgap : drainGap [r] memory.expectTimestamp = memory.expectTimestamp :=
      drainGap_cons_early (List.pairwise_singleton ..) hearly
    change popped [r] (drainGap [r] memory.expectTimestamp) = []
    rw [hgap, popped, List.filter_cons_of_neg (by simpa using hearly), List.filter_nil]
  have hbefore : (Context.fresh memory).expectTimestamp < r.exchangeTimestamp := hearly
  obtain ⟨t, _, ht, _⟩ := receive_early (p := p) (u := p) hbefore
    (congrArg (releaseAll · p) hpopped)
  exact ⟨t, ht⟩

/-- The tracker after further feeds. -/
def Tracker.receiveAll (tracker : Tracker) (feeds : List StatisticsFeed) : Tracker :=
  feeds.foldl (fun tracker sf => (tracker.receive sf).1) tracker

namespace Processors

variable {ι : Type}

/-- What was recorded for a feedcode in `s` has become in `t` what the feeds received
since then make of it: its expected timestamp, its pair and its queue. -/
def Survives (s t : Processors ι) : Prop :=
  ∃ feeds, t.received = s.received ++ feeds ∧ ∀ code c, s.recorded code = some c →
    ∃ c', t.recorded code = some c' ∧
      c'.view = c.view.receiveAll (feeds.filter (fun sf => sf.feedcode = code))

/-- No context is ever replaced in the run, no processor works with another one, and
nothing recorded is lost. -/
def Kept [DecidableEq ι] (actions : List (Action ι)) : Prop :=
  ∀ past more s t, past ++ more <+: actions → run past = .ok s → run (past ++ more) = .ok t →
    Extends s t ∧ t.Attached ∧ Survives s t

/-- How far the context of a feedcode has come. -/
inductive Stage (s : Processors ι) (code : String) : Prop where
  | untouched (hmap : s.myMap.get? code = none)
      (hnobody : ∀ j, (s.phase j).feedcode? ≠ some code)
  | absent (i : ι) (sf : FeedRef) (hcode : sf.feed.feedcode = code)
      (hmap : s.myMap.get? code = none) (hphase : s.phase i = .absent sf)
      (honly : ∀ j, (s.phase j).feedcode? = some code → j = i)
  | unset (i : ι) (sf : FeedRef) (context : Nat) (hcode : sf.feed.feedcode = code)
      (hmap : s.myMap.get? code = some context) (hcontext : s.contexts[context]? = some none)
      (hphase : s.phase i = .created sf ∨ s.phase i = .opening sf context)
      (honly : ∀ j, (s.phase j).feedcode? = some code → j = i)
  | recorded (context : Nat) (c : Context) (hmap : s.myMap.get? code = some context)
      (hcontext : s.contexts[context]? = some (some c))
      (hphase : ∀ j, (s.phase j).feedcode? = some code →
        ∃ sf, s.phase j = .present sf ∨ s.phase j = .holding sf context)

/-- What holds while calls of `has` are alone. -/
structure Inv (s : Processors ι) : Prop where
  distinct : ∀ code code' context, s.myMap.get? code = some context →
    s.myMap.get? code' = some context → code = code'
  stage : ∀ code, s.Stage code

theorem start_inv : (start : Processors ι).Inv := by
  refine ⟨?_, ?_⟩
  · intro code code' context h
    cases h
  · intro code
    refine .untouched rfl ?_
    intro j hj
    cases hj

section Stages

variable {s t : Processors ι} {code : String}

/-- Nothing that concerns the feedcode has changed. -/
theorem Stage.frame (h : s.Stage code) (hmap : t.myMap.get? code = s.myMap.get? code)
    (hcontexts : ∀ context, s.myMap.get? code = some context →
      t.contexts[context]? = s.contexts[context]?)
    (hphase : ∀ j, (s.phase j).feedcode? = some code ∨ (t.phase j).feedcode? = some code →
      t.phase j = s.phase j) : t.Stage code := by
  have hback : ∀ j, (t.phase j).feedcode? = some code → (s.phase j).feedcode? = some code := by
    intro j hj
    rw [← hphase j (Or.inr hj)]
    exact hj
  cases h with
  | untouched hnone hnobody =>
      exact .untouched (hmap.trans hnone) fun j hj => hnobody j (hback j hj)
  | absent i sf hcode hnone hi honly =>
      have hsame := hphase i (Or.inl (by rw [hi, ← hcode]; rfl))
      exact .absent i sf hcode (hmap.trans hnone) (hsame.trans hi) fun j hj =>
        honly j (hback j hj)
  | unset i sf context hcode hsome hcontext hi honly =>
      have hsame := hphase i (Or.inl (by rcases hi with hi | hi <;> rw [hi, ← hcode] <;> rfl))
      exact .unset i sf context hcode (hmap.trans hsome)
        ((hcontexts context hsome).trans hcontext) (hi.imp hsame.trans hsame.trans) fun j hj =>
        honly j (hback j hj)
  | recorded context c hsome hcontext husers =>
      refine .recorded context c (hmap.trans hsome) ((hcontexts context hsome).trans hcontext) ?_
      intro j hj
      rw [hphase j (Or.inr hj)]
      exact husers j (hback j hj)

theorem Stage.bounded (h : s.Stage code) {context : Nat}
    (hget : s.myMap.get? code = some context) : context < s.contexts.length := by
  cases h with
  | untouched hnone =>
      rw [hnone] at hget
      cases hget
  | absent i sf hcode hnone =>
      rw [hnone] at hget
      cases hget
  | unset i sf context' hcode hsome hcontext =>
      rw [hsome] at hget
      cases hget
      exact (List.getElem?_eq_some_iff.mp hcontext).1
  | recorded context' c hsome hcontext =>
      rw [hsome] at hget
      cases hget
      exact (List.getElem?_eq_some_iff.mp hcontext).1

theorem Inv.attached (h : s.Inv) : s.Attached := by
  intro i sf context hpointer
  have hcode := Phase.feedcode?_of_pointer? hpointer
  cases h.stage sf.feed.feedcode with
  | untouched _ hnobody => exact absurd hcode (hnobody i)
  | absent j r _ _ hj honly =>
      rw [honly i hcode, hj] at hpointer
      cases hpointer
  | unset j r context' _ hsome _ hj honly =>
      rw [honly i hcode] at hpointer
      rcases hj with hj | hj
      · rw [hj] at hpointer
        cases hpointer
      · rw [hj] at hpointer
        cases hpointer
        exact hsome
  | recorded context' c hsome _ husers =>
      obtain ⟨r, hi | hi⟩ := husers i hcode
      · rw [hi] at hpointer
        cases hpointer
      · rw [hi] at hpointer
        cases hpointer
        exact hsome

variable {i : ι} {sf : FeedRef}

/-- A processor that is about to create a context is the only one, and there is none. -/
theorem Inv.of_absent (h : s.Inv) (hphase : s.phase i = .absent sf) :
    s.myMap.get? sf.feed.feedcode = none ∧
      ∀ j, (s.phase j).feedcode? = some sf.feed.feedcode → j = i := by
  have hcode : (s.phase i).feedcode? = some sf.feed.feedcode := by rw [hphase]; rfl
  cases h.stage sf.feed.feedcode with
  | untouched _ hnobody => exact absurd hcode (hnobody i)
  | absent j r _ hnone hj honly =>
      obtain rfl := honly i hcode
      exact ⟨hnone, honly⟩
  | unset j r context _ _ _ hj honly =>
      rw [← honly i hcode, hphase] at hj
      rcases hj with hj | hj <;> cases hj
  | recorded context c _ _ husers =>
      obtain ⟨r, hi | hi⟩ := husers i hcode <;> rw [hphase] at hi <;> cases hi

/-- One that is about to initialise a context is the only one, and nothing is set. -/
theorem Inv.of_unset (h : s.Inv)
    (hphase : s.phase i = .created sf ∨ ∃ context, s.phase i = .opening sf context) :
    ∃ context, s.myMap.get? sf.feed.feedcode = some context ∧
      s.contexts[context]? = some none ∧
      ∀ j, (s.phase j).feedcode? = some sf.feed.feedcode → j = i := by
  have hcode : (s.phase i).feedcode? = some sf.feed.feedcode := by
    rcases hphase with hi | ⟨_, hi⟩ <;> rw [hi] <;> rfl
  cases h.stage sf.feed.feedcode with
  | untouched _ hnobody => exact absurd hcode (hnobody i)
  | absent j r _ _ hj honly =>
      rw [← honly i hcode] at hj
      rcases hphase with hi | ⟨_, hi⟩ <;> rw [hi] at hj <;> cases hj
  | unset j r context _ hsome hcontext _ honly =>
      obtain rfl := honly i hcode
      exact ⟨context, hsome, hcontext, honly⟩
  | recorded context c _ _ husers =>
      rcases hphase with hi | ⟨_, hi⟩ <;> obtain ⟨r, hr | hr⟩ := husers i hcode <;>
        rw [hi] at hr <;> cases hr

/-- One that uses a context finds its members set. -/
theorem Inv.of_use (h : s.Inv)
    (hphase : s.phase i = .present sf ∨ ∃ context, s.phase i = .holding sf context) :
    ∃ context c, s.myMap.get? sf.feed.feedcode = some context ∧
      s.contexts[context]? = some (some c) ∧
      ∀ j, (s.phase j).feedcode? = some sf.feed.feedcode →
        ∃ r, s.phase j = .present r ∨ s.phase j = .holding r context := by
  have hcode : (s.phase i).feedcode? = some sf.feed.feedcode := by
    rcases hphase with hi | ⟨_, hi⟩ <;> rw [hi] <;> rfl
  cases h.stage sf.feed.feedcode with
  | untouched _ hnobody => exact absurd hcode (hnobody i)
  | absent j r _ _ hj honly =>
      rw [← honly i hcode] at hj
      rcases hphase with hi | ⟨_, hi⟩ <;> rw [hi] at hj <;> cases hj
  | unset j r context _ _ _ hj honly =>
      rw [← honly i hcode] at hj
      rcases hphase with hi | ⟨_, hi⟩ <;> rcases hj with hj | hj <;> rw [hi] at hj <;> cases hj
  | recorded context c hsome hcontext husers => exact ⟨context, c, hsome, hcontext, husers⟩

end Stages

/-- A step that keeps the invariant and loses nothing. -/
structure Advances (s t : Processors ι) : Prop where
  inv : t.Inv
  pointer : Extends s t
  content : Survives s t

section Advance

variable {s t : Processors ι} {i : ι} {sf : FeedRef} {context : Nat}

theorem Same.recorded (h : Same s t) (code : String) : t.recorded code = s.recorded code := by
  unfold Processors.recorded
  rw [h.myMap, h.contexts]

theorem Same.pointer (h : Same s t) : Extends s t := by
  intro feedcode context hcontext
  rw [h.myMap]
  exact hcontext

theorem Survives.of_recorded (hreceived : t.received = s.received)
    (h : ∀ code c, s.recorded code = some c → t.recorded code = some c) : Survives s t :=
  ⟨[], by rw [hreceived, List.append_nil], fun code c hc => ⟨c, h code c hc, rfl⟩⟩

theorem Same.content (h : Same s t) : Survives s t := by
  refine .of_recorded h.received ?_
  intro code c hc
  rw [h.recorded, hc]

/-- Writing through the pointer of one feedcode leaves the others' contexts. -/
theorem Inv.other_context (h : s.Inv) {code : String} (hne : code ≠ sf.feed.feedcode)
    (hget : s.myMap.get? sf.feed.feedcode = some context) {c : Option Context}
    (hcontexts : t.contexts = s.contexts.set context c) {context' : Nat}
    (hget' : s.myMap.get? code = some context') :
    t.contexts[context']? = s.contexts[context']? := by
  have hcontext : context ≠ context' := by
    rintro rfl
    exact hne (h.distinct _ _ _ hget' hget)
  rw [hcontexts, List.getElem?_set_ne hcontext]

theorem Inv.other_recorded (h : s.Inv) {code : String} (hne : code ≠ sf.feed.feedcode)
    (hget : s.myMap.get? sf.feed.feedcode = some context) {c : Option Context}
    (hmap : t.myMap = s.myMap) (hcontexts : t.contexts = s.contexts.set context c) :
    t.recorded code = s.recorded code := by
  unfold Processors.recorded
  rw [hmap]
  cases hget' : s.myMap.get? code with
  | none => rfl
  | some context' =>
      rw [Option.bind_some, Option.bind_some, h.other_context hne hget hcontexts hget']

theorem Inv.stay (h : s.Inv) (hsame : Same s t) (hphase : t.phase = s.phase) : Advances s t := by
  refine ⟨⟨?_, ?_⟩, hsame.pointer, hsame.content⟩
  · rw [hsame.myMap]
    exact h.distinct
  · intro code
    refine (h.stage code).frame (by rw [hsame.myMap]) (fun _ _ => by rw [hsame.contexts]) ?_
    intro j _
    rw [hphase]

variable [DecidableEq ι]

/-- A processor's step concerns one feedcode. -/
theorem Stage.other {code : String} (h : s.Stage code) {phase : Phase}
    (hphase : t.phase = Function.update s.phase i phase)
    (hold : (s.phase i).feedcode? ≠ some code) (hnew : phase.feedcode? ≠ some code)
    (hmap : t.myMap.get? code = s.myMap.get? code)
    (hcontexts : ∀ context, s.myMap.get? code = some context →
      t.contexts[context]? = s.contexts[context]?) : t.Stage code := by
  refine h.frame hmap hcontexts ?_
  intro j hj
  rw [hphase, Function.update_apply] at hj ⊢
  split_ifs at hj ⊢ with hji
  · subst hji
    exact absurd hj (not_or.mpr ⟨hold, hnew⟩)
  · rfl

/-- Only the feedcode of the processor that moves has to be looked at. -/
theorem Inv.advance_same (h : s.Inv) (hsame : Same s t) {phase : Phase}
    (hphase : t.phase = Function.update s.phase i phase) (code : String)
    (hold : ∀ other ≠ code, (s.phase i).feedcode? ≠ some other)
    (hnew : ∀ other ≠ code, phase.feedcode? ≠ some other) (hstage : t.Stage code) :
    Advances s t := by
  refine ⟨⟨?_, ?_⟩, hsame.pointer, hsame.content⟩
  · rw [hsame.myMap]
    exact h.distinct
  · intro other
    by_cases hother : other = code
    · exact hother ▸ hstage
    · exact (h.stage other).other hphase (hold other hother) (hnew other hother)
        (by rw [hsame.myMap]) (fun _ _ => by rw [hsame.contexts])

/-- Who is occupied with a feedcode after a processor has moved. -/
theorem feedcode?_of_update {phase : Phase} (hphase : t.phase = Function.update s.phase i phase)
    {j : ι} {code : String} (hj : (t.phase j).feedcode? = some code) :
    j = i ∨ (s.phase j).feedcode? = some code := by
  rw [hphase, Function.update_apply] at hj
  split_ifs at hj with hji
  · exact Or.inl hji
  · exact Or.inr hj

/-- A call of `has` that is alone. -/
theorem Inv.has (h : s.Inv) (sf : FeedRef) (hsame : Same s t) (hidle : s.phase i = .idle)
    (halone : ∀ j, (s.phase j).opens? ≠ some sf.feed.feedcode)
    (hphase : t.phase = Function.update s.phase i
      (if s.has sf.feed.feedcode then .present sf else .absent sf)) : Advances s t := by
  refine h.advance_same hsame hphase sf.feed.feedcode ?_ ?_ ?_
  · intro other _ hother
    rw [hidle] at hother
    cases hother
  · intro other hne hother
    split_ifs at hother <;> exact hne (Option.some.inj hother).symm
  · cases h.stage sf.feed.feedcode with
    | untouched hnone hnobody =>
        have hhas : s.has sf.feed.feedcode = false := by rw [Processors.has, hnone]; rfl
        rw [hhas, if_neg Bool.false_ne_true] at hphase
        refine .absent i sf rfl (by rw [hsame.myMap, hnone])
          (by rw [hphase, Function.update_self]) ?_
        intro j hj
        exact (feedcode?_of_update hphase hj).resolve_right (hnobody j)
    | absent j r hcode _ hj _ =>
        exact absurd (by rw [hj, ← hcode]; rfl) (halone j)
    | unset j r context hcode _ _ hj _ =>
        refine absurd ?_ (halone j)
        rcases hj with hj | hj <;> rw [hj, ← hcode] <;> rfl
    | recorded context c hsome hcontext husers =>
        have hhas : s.has sf.feed.feedcode = true := by rw [Processors.has, hsome]; rfl
        rw [hhas, if_pos rfl] at hphase
        refine .recorded context c (by rw [hsame.myMap, hsome])
          (by rw [hsame.contexts, hcontext]) ?_
        intro j hj
        rcases feedcode?_of_update hphase hj with rfl | hold
        · exact ⟨sf, Or.inl (by rw [hphase, Function.update_self])⟩
        · rw [hphase, Function.update_apply]
          split_ifs
          · exact ⟨sf, Or.inl rfl⟩
          · exact husers j hold

/-- The one processor that is about to create a context does so. -/
theorem Inv.create (h : s.Inv) (habsent : s.phase i = .absent sf)
    (hmap : t.myMap = s.myMap.insert sf.feed.feedcode s.contexts.length)
    (hcontexts : t.contexts = s.contexts ++ [none]) (hreceived : t.received = s.received)
    (hphase : t.phase = Function.update s.phase i (.created sf)) : Advances s t := by
  obtain ⟨hnone, honly⟩ := h.of_absent habsent
  have hself : t.myMap.get? sf.feed.feedcode = some s.contexts.length := by
    rw [hmap, OrdMap.get?_insert_self]
  have hother : ∀ code ≠ sf.feed.feedcode, t.myMap.get? code = s.myMap.get? code := by
    intro code hne
    rw [hmap, OrdMap.get?_insert_of_ne _ _ hne]
  have hold : ∀ code context, s.myMap.get? code = some context → code ≠ sf.feed.feedcode ∧
      context < s.contexts.length ∧ t.contexts[context]? = s.contexts[context]? := by
    intro code context hget
    have hlt := (h.stage code).bounded hget
    refine ⟨?_, hlt, ?_⟩
    · rintro rfl
      rw [hnone] at hget
      cases hget
    · rw [hcontexts, List.getElem?_append_left hlt]
  refine ⟨⟨?_, ?_⟩, ?_, .of_recorded hreceived ?_⟩
  · intro code code' context hget hget'
    by_cases hcode : code = sf.feed.feedcode <;> by_cases hcode' : code' = sf.feed.feedcode
    · rw [hcode, hcode']
    · rw [hcode, hself, Option.some.injEq] at hget
      rw [hother code' hcode'] at hget'
      have := (hold code' context hget').2.1
      omega
    · rw [hcode', hself, Option.some.injEq] at hget'
      rw [hother code hcode] at hget
      have := (hold code context hget).2.1
      omega
    · rw [hother code hcode] at hget
      rw [hother code' hcode'] at hget'
      exact h.distinct code code' context hget hget'
  · intro code
    by_cases hcode : code = sf.feed.feedcode
    · subst hcode
      refine .unset i sf s.contexts.length rfl hself ?_ (Or.inl ?_) ?_
      · rw [hcontexts, List.getElem?_concat_length]
      · rw [hphase, Function.update_self]
      · intro j hj
        exact (feedcode?_of_update hphase hj).elim id (honly j)
    · refine (h.stage code).other hphase ?_ ?_ (hother code hcode) ?_
      · rw [habsent]
        exact fun heq => hcode (Option.some.inj heq).symm
      · exact fun heq => hcode (Option.some.inj heq).symm
      · exact fun context hget => (hold code context hget).2.2
  · intro code context hget
    rw [hother code (hold code context hget).1]
    exact hget
  · intro code c hc
    obtain ⟨context, hget, hjoin⟩ := Option.bind_eq_some_iff.mp hc
    obtain ⟨hne, _, hsame⟩ := hold code context hget
    rw [recorded_of_get? ((hother code hne).trans hget), hsame]
    exact hjoin

theorem Inv.locate (h : s.Inv) (hcreated : s.phase i = .created sf)
    (hget : s.myMap.get? sf.feed.feedcode = some context) (hsame : Same s t)
    (hphase : t.phase = Function.update s.phase i (.opening sf context)) : Advances s t := by
  obtain ⟨context', hget', hcontext, honly⟩ := h.of_unset (Or.inl hcreated)
  obtain rfl : context = context' := Option.some.inj (hget.symm.trans hget')
  refine h.advance_same hsame hphase sf.feed.feedcode ?_ ?_ ?_
  · intro other hne hother
    rw [hcreated] at hother
    exact hne (Option.some.inj hother).symm
  · intro other hne hother
    exact hne (Option.some.inj hother).symm
  · refine .unset i sf context rfl (by rw [hsame.myMap, hget])
      (by rw [hsame.contexts, hcontext]) (Or.inr (by rw [hphase, Function.update_self])) ?_
    intro j hj
    exact (feedcode?_of_update hphase hj).elim id (honly j)

theorem Inv.fetch (h : s.Inv) (hpresent : s.phase i = .present sf)
    (hget : s.myMap.get? sf.feed.feedcode = some context) (hsame : Same s t)
    (hphase : t.phase = Function.update s.phase i (.holding sf context)) : Advances s t := by
  obtain ⟨context', c, hget', hcontext, husers⟩ := h.of_use (Or.inl hpresent)
  obtain rfl : context = context' := Option.some.inj (hget.symm.trans hget')
  refine h.advance_same hsame hphase sf.feed.feedcode ?_ ?_ ?_
  · intro other hne hother
    rw [hpresent] at hother
    exact hne (Option.some.inj hother).symm
  · intro other hne hother
    exact hne (Option.some.inj hother).symm
  · refine .recorded context c (by rw [hsame.myMap, hget]) (by rw [hsame.contexts, hcontext]) ?_
    intro j hj
    rw [hphase, Function.update_apply]
    split_ifs with hji
    · exact ⟨sf, Or.inr rfl⟩
    · exact husers j ((feedcode?_of_update hphase hj).resolve_left hji)

/-- A write into the context of one feedcode, which is recorded afterwards. -/
theorem Inv.write (h : s.Inv) (hget : s.myMap.get? sf.feed.feedcode = some context)
    (hmap : t.myMap = s.myMap) {c : Context}
    (hcontexts : t.contexts = s.contexts.set context (some c)) {phase : Phase}
    (hphase : t.phase = Function.update s.phase i phase)
    (hold : (s.phase i).feedcode? = some sf.feed.feedcode)
    (hnew : phase = .present sf ∨ phase = .idle)
    (husers : ∀ j ≠ i, (s.phase j).feedcode? = some sf.feed.feedcode →
      ∃ r, s.phase j = .present r ∨ s.phase j = .holding r context) :
    t.Inv ∧ Extends s t ∧ t.recorded sf.feed.feedcode = some c := by
  have hlt := (h.stage _).bounded hget
  have hget' : t.myMap.get? sf.feed.feedcode = some context := by rw [hmap, hget]
  have hcontext : t.contexts[context]? = some (some c) := by
    rw [hcontexts, List.getElem?_set_self hlt]
  refine ⟨⟨?_, ?_⟩, ?_, ?_⟩
  · rw [hmap]
    exact h.distinct
  · intro code
    by_cases hcode : code = sf.feed.feedcode
    · subst hcode
      refine .recorded context c hget' hcontext ?_
      intro j hj
      by_cases hji : j = i
      · subst hji
        rw [hphase, Function.update_self] at hj ⊢
        rcases hnew with rfl | rfl
        · exact ⟨sf, Or.inl rfl⟩
        · cases hj
      · rw [hphase, Function.update_of_ne hji] at hj ⊢
        exact husers j hji hj
    · refine (h.stage code).other hphase ?_ ?_ (by rw [hmap]) ?_
      · rw [hold]
        exact fun heq => hcode (Option.some.inj heq).symm
      · rcases hnew with rfl | rfl
        · exact fun heq => hcode (Option.some.inj heq).symm
        · exact fun heq => nomatch heq
      · exact fun _ => h.other_context hcode hget hcontexts
  · intro code context' hcode
    rw [hmap]
    exact hcode
  · rw [recorded_of_get? hget', hcontext]
    rfl

/-- The processor that has created a context initialises it. Nothing was recorded. -/
theorem Inv.initialise (h : s.Inv) (hopening : s.phase i = .opening sf context)
    (hmap : t.myMap = s.myMap) {c : Context}
    (hcontexts : t.contexts = s.contexts.set context (some c))
    (hreceived : t.received = s.received)
    (hphase : t.phase = Function.update s.phase i (.present sf)) : Advances s t := by
  have hget := h.attached i sf context (by rw [hopening]; rfl)
  obtain ⟨context', hget', hnone, honly⟩ := h.of_unset (Or.inr ⟨context, hopening⟩)
  obtain rfl : context = context' := Option.some.inj (hget.symm.trans hget')
  obtain ⟨hinv, hextends, _⟩ := h.write hget hmap hcontexts hphase (by rw [hopening]; rfl)
    (Or.inl rfl) (fun j hji hj => absurd (honly j hj) hji)
  refine ⟨hinv, hextends, .of_recorded hreceived ?_⟩
  intro code c' hc'
  have hne : code ≠ sf.feed.feedcode := by
    rintro rfl
    rw [recorded_of_get? hget, hnone] at hc'
    cases hc'
  rw [h.other_recorded hne hget hmap hcontexts]
  exact hc'

theorem Inv.receive (h : s.Inv) (hholding : s.phase i = .holding sf context)
    {memory : ContextMemory} {c after : Context} (hload : s.load memory context = .ok c)
    (hview : after.view = (c.view.receive sf.feed).1) (hmap : t.myMap = s.myMap)
    (hcontexts : t.contexts = s.contexts.set context (some after))
    (hreceived : t.received = s.received ++ [sf.feed])
    (hphase : t.phase = Function.update s.phase i .idle) : Advances s t := by
  have hget := h.attached i sf context (by rw [hholding]; rfl)
  obtain ⟨context', c', hget', hcontext, husers⟩ := h.of_use (Or.inr ⟨context, hholding⟩)
  obtain rfl : context = context' := Option.some.inj (hget.symm.trans hget')
  obtain rfl : c' = c := by
    simp only [load, hcontext, Option.getD_some] at hload
    exact Except.ok.inj hload
  obtain ⟨hinv, hextends, hafter⟩ := h.write hget hmap hcontexts hphase (by rw [hholding]; rfl)
    (Or.inr rfl) (fun j _ hj => husers j hj)
  refine ⟨hinv, hextends, [sf.feed], hreceived, ?_⟩
  intro code old hold
  by_cases hcode : code = sf.feed.feedcode
  · subst hcode
    obtain rfl : c' = old := by
      rw [recorded_of_get? hget, hcontext] at hold
      exact Option.some.inj hold
    refine ⟨after, hafter, ?_⟩
    rw [List.filter_cons_of_pos (by simp), List.filter_nil]
    exact hview
  · refine ⟨old, (h.other_recorded hcode hget hmap hcontexts).trans hold, ?_⟩
    rw [List.filter_cons_of_neg (by simpa using Ne.symm hcode), List.filter_nil]
    rfl

theorem Inv.step (h : s.Inv) {action : Action ι} (halone : s.Alone action)
    (hstep : s.step action = .ok t) : Advances s t := by
  cases step_moves hstep with
  | stay hsame hphase => exact h.stay hsame hphase
  | has hidle hfeed hsame hphase =>
      exact h.has ⟨s.heap.brk + 1, _⟩ hsame hidle (halone _ _ _ rfl hidle hfeed) hphase
  | create habsent hmap hcontexts hreceived hphase =>
      exact h.create habsent hmap hcontexts hreceived hphase
  | locate hcreated hget hsame hphase => exact h.locate hcreated hget hsame hphase
  | initialise c hopening hmap hcontexts hreceived hphase =>
      exact h.initialise hopening hmap hcontexts hreceived hphase
  | fetch hpresent hget hsame hphase => exact h.fetch hpresent hget hsame hphase
  | receive c after hholding hload hview hmap hcontexts hreceived hphase =>
      exact h.receive hholding hload hview hmap hcontexts hreceived hphase

end Advance

theorem Survives.trans {s t u : Processors ι} (hst : Survives s t) (htu : Survives t u) :
    Survives s u := by
  obtain ⟨first, hfirst, hst⟩ := hst
  obtain ⟨second, hsecond, htu⟩ := htu
  refine ⟨first ++ second, by rw [hsecond, hfirst, List.append_assoc], ?_⟩
  intro code c hc
  obtain ⟨c', hc', hview⟩ := hst code c hc
  obtain ⟨c'', hc'', hview'⟩ := htu code c' hc'
  refine ⟨c'', hc'', ?_⟩
  rw [hview', hview, List.filter_append]
  exact (List.foldl_append ..).symm

section Runs

variable [DecidableEq ι]

/-- A run whose calls of `has` are all alone. -/
def Undisturbed (actions : List (Action ι)) : Prop :=
  ∀ past action s, past ++ [action] <+: actions → run past = .ok s → s.Alone action

theorem Undisturbed.inv {actions : List (Action ι)} (h : Undisturbed actions)
    {s : Processors ι} (hrun : run actions = .ok s) : s.Inv := by
  refine (foldlM_ok_history (I := fun seen u => run seen = .ok u ∧ u.Inv) hrun
    ⟨rfl, start_inv⟩ ?_).2
  rintro seen action u v hpre ⟨hu, hinv⟩ hstep
  exact ⟨(run_concat hu action).trans hstep, (hinv.step (h seen action u hpre hu) hstep).inv⟩

theorem Undisturbed.take {actions past : List (Action ι)} (h : Undisturbed actions)
    (hpast : past <+: actions) : Undisturbed past := by
  intro xs x s hpre
  exact h xs x s (hpre.trans hpast)

theorem Undisturbed.kept {actions : List (Action ι)} (h : Undisturbed actions) :
    Kept actions := by
  intro past more s t hpre hs ht
  induction more using List.reverseRecOn generalizing t with
  | nil =>
      rw [List.append_nil, hs] at ht
      cases ht
      exact ⟨fun _ _ hcontext => hcontext,
        ((h.take ((List.prefix_append past []).trans hpre)).inv hs).attached,
        .of_recorded rfl fun _ _ hc => hc⟩
  | append_singleton more action ih =>
      rw [← List.append_assoc] at hpre ht
      unfold run at ht
      rw [foldlM_concat] at ht
      obtain ⟨u, hu, hstep⟩ := bind_eq_ok.mp ht
      have hshorter := (List.prefix_append (past ++ more) [action]).trans hpre
      obtain ⟨hextends, _, hsurvives⟩ := ih u hshorter hu
      have hlast := ((h.take hshorter).inv hu).step (h _ _ _ hpre hu) hstep
      exact ⟨fun _ _ hcontext => hlast.pointer _ _ (hextends _ _ hcontext), hlast.inv.attached,
        hsurvives.trans hlast.content⟩

/-- Two processors about to create one context replace it, one after the other. -/
theorem create_twice {past : List (Action ι)} {s : Processors ι} (hrun : run past = .ok s)
    {i j : ι} (hne : j ≠ i) {sf sf' : FeedRef} (hi : s.phase i = .absent sf)
    (hj : s.phase j = .absent sf') (heq : sf'.feed.feedcode = sf.feed.feedcode) :
    ¬ Kept (past ++ finish [(i, {}), (j, {})]) := by
  intro hkept
  let first := (s.create sf.feed.feedcode).goTo i (.created sf)
  have hfirst : run (past ++ [.next i {}]) = .ok first := by
    rw [run_concat hrun, next_absent hi]
  have hj' : first.phase j = .absent sf' := by
    simp only [first, goTo, create]
    rw [Function.update_of_ne hne, hj]
  have hsecond : run (past ++ [.next i {}] ++ [.next j {}]) =
      .ok ((first.create sf'.feed.feedcode).goTo j (.created sf')) := by
    rw [run_concat hfirst, next_absent hj']
  obtain ⟨hextends, _⟩ := hkept (past ++ [.next i {}]) [.next j {}] _ _ (by simp [finish])
    hfirst hsecond
  have hold : first.myMap.get? sf.feed.feedcode = some s.contexts.length :=
    OrdMap.get?_insert_self _ _ _
  have hnew := hextends _ _ hold
  change (first.myMap.insert sf'.feed.feedcode first.contexts.length).get? _ = _ at hnew
  rw [heq, OrdMap.get?_insert_self] at hnew
  simp [first, goTo, create] at hnew

/-- A processor that has yet to initialise a context overwrites what is recorded. -/
theorem initialise_overwrites {past : List (Action ι)} {s : Processors ι}
    (hrun : run past = .ok s) {j : ι} {r : FeedRef} {context : Nat} {c : Context}
    (hj : s.phase j = .opening r context) (hget : s.myMap.get? r.feed.feedcode = some context)
    (hcontext : s.contexts[context]? = some (some c))
    (hne : c.expectTimestamp ≠ r.exchangeTimestamp) : ¬ Kept (past ++ finish [(j, {})]) := by
  intro hkept
  let t := (s.store context (c.initialise r.feed)).goTo j (.present r)
  have ht : run (past ++ [.next j {}]) = .ok t := by
    rw [run_concat hrun, next_opening hj hcontext]
    rfl
  obtain ⟨_, _, feeds, hreceived, hsurvives⟩ := hkept past [.next j {}] s t List.prefix_rfl hrun ht
  obtain rfl : feeds = [] := List.self_eq_append_right.mp hreceived
  have hlt : context < s.contexts.length := (List.getElem?_eq_some_iff.mp hcontext).1
  obtain ⟨c', hc', hview⟩ := hsurvives r.feed.feedcode c
    (by rw [recorded_of_get? hget, hcontext]; rfl)
  have hnew : t.recorded r.feed.feedcode = some (c.initialise r.feed) := by
    rw [recorded_of_get? (s := t) hget]
    change ((s.contexts.set context (some (c.initialise r.feed)))[context]?).join = _
    rw [List.getElem?_set_self hlt]
    rfl
  obtain rfl : c.initialise r.feed = c' := Option.some.inj (hnew.symm.trans hc')
  exact hne (congrArg Tracker.expectTimestamp hview).symm

/-- A processor that comes first and uses a context whose members are not set. What it
records is overwritten, if the fresh memory happens to hold an earlier timestamp. -/
theorem use_unset {past : List (Action ι)} {s : Processors ι} (hrun : run past = .ok s)
    {i j : ι} (hne : j ≠ i) {sf r : FeedRef} {context : Nat} (hi : s.phase i = .present sf)
    (hj : s.phase j = .created r ∨ s.phase j = .opening r context)
    (heq : r.feed.feedcode = sf.feed.feedcode)
    (hget : s.myMap.get? sf.feed.feedcode = some context)
    (hcontext : s.contexts[context]? = some none) :
    ∃ moves, ¬ Kept (past ++ finish moves) := by
  let memory : ContextMemory :=
    {expectTimestamp := min sf.exchangeTimestamp r.exchangeTimestamp - 1}
  have hearly : memory.expectTimestamp < sf.exchangeTimestamp := by
    have : memory.expectTimestamp = min sf.exchangeTimestamp r.exchangeTimestamp - 1 := rfl
    omega
  have hlt : context < s.contexts.length := (List.getElem?_eq_some_iff.mp hcontext).1
  let held := s.goTo i (.holding sf context)
  have hheld : run (past ++ [.next i {}]) = .ok held := by
    rw [run_concat hrun, next_present hi hget]
  obtain ⟨e, he⟩ := receive_unset ⟨s.heap, ContextMap.empty.put sf.feed.feedcode
    (Context.fresh memory), s.self i⟩ hearly
  obtain ⟨c, hc, hview⟩ := (receive_tracks he).2 (ContextMap.getContext_put_self _ _ _)
  have hexpect : c.expectTimestamp ≠ r.exchangeTimestamp := by
    have hsame : c.expectTimestamp = memory.expectTimestamp :=
      (congrArg Tracker.expectTimestamp hview).trans (Tracker.receive_first rfl hearly)
    have : memory.expectTimestamp = min sf.exchangeTimestamp r.exchangeTimestamp - 1 := rfl
    omega
  let used := (({held with received := held.received ++ [sf.feed]}.put i e).store context c).goTo i
    .idle
  have hused : run (past ++ [.next i {}] ++ [.next i memory]) = .ok used := by
    have hholding : held.phase i = .holding sf context := Function.update_self ..
    have hload : held.load memory context = .ok (Context.fresh memory) := by
      simp only [load, held, goTo, hcontext]
      rfl
    rw [run_concat hheld]
    simp only [step, next, hholding, hload, ok_bind]
    change DeficiencyProcessor.receive ⟨s.heap, _, s.self i⟩ _ sf >>= _ = _
    rw [he, ok_bind, hc]
    rfl
  have hphase : used.phase j = s.phase j := by
    change Function.update (Function.update s.phase i _) i _ j = _
    rw [Function.update_idem, Function.update_of_ne hne]
  have hget' : used.myMap.get? r.feed.feedcode = some context := by
    rw [heq]
    exact hget
  have hcontext' : used.contexts[context]? = some (some c) := List.getElem?_set_self hlt
  rcases hj with hj | hj
  · refine ⟨[(i, {}), (i, memory), (j, {}), (j, {})], ?_⟩
    have hlocated : run (past ++ [.next i {}] ++ [.next i memory] ++ [.next j {}]) =
        .ok (used.goTo j (.opening r context)) := by
      rw [run_concat hused, next_created (hphase.trans hj) hget']
    have hlost := initialise_overwrites hlocated (Function.update_self ..) hget' hcontext' hexpect
    simpa [finish] using hlost
  · refine ⟨[(i, {}), (i, memory), (j, {})], ?_⟩
    have hlost := initialise_overwrites hused (hphase.trans hj) hget' hcontext' hexpect
    simpa [finish] using hlost

/-- A call of `has` while another processor is about to create the context or to
initialise it. -/
theorem Inv.disturbed {past : List (Action ι)} {s : Processors ι} (h : s.Inv)
    (hpast : run past = .ok s) {i : ι} {incoming : Incoming} {sf : StatisticsFeed}
    (hidle : s.phase i = .idle) (hfeed : incoming.feed = .statistics sf) {j : ι}
    (hopens : (s.phase j).opens? = some sf.feedcode) :
    ∃ moves, ¬ Kept (past ++ [.begin i incoming] ++ finish moves) := by
  obtain ⟨e, he⟩ := begin_ok s i hidle hfeed
  have hrun := (run_concat hpast (.begin i incoming)).trans he
  have hne : j ≠ i := by
    rintro rfl
    rw [hidle] at hopens
    cases hopens
  have hj : ∀ phase, ((s.put i e).goTo i phase).phase j = s.phase j :=
    fun phase => Function.update_of_ne hne _ _
  have hcode := Phase.feedcode?_of_opens? hopens
  cases h.stage sf.feedcode with
  | untouched _ hnobody => exact absurd hcode (hnobody j)
  | absent k r hr hnone hk honly =>
      obtain rfl := honly j hcode
      have hhas : s.has sf.feedcode = false := by rw [Processors.has, hnone]; rfl
      rw [hhas, if_neg Bool.false_ne_true] at hrun
      exact ⟨_, create_twice hrun hne (Function.update_self ..) ((hj _).trans hk) hr⟩
  | unset k r context hr hsome hcontext hk honly =>
      obtain rfl := honly j hcode
      have hhas : s.has sf.feedcode = true := by rw [Processors.has, hsome]; rfl
      rw [hhas, if_pos rfl] at hrun
      exact use_unset hrun hne (Function.update_self ..) (hk.imp (hj _).trans (hj _).trans) hr
        hsome hcontext
  | recorded context c _ _ husers =>
      obtain ⟨r, hk | hk⟩ := husers j hcode <;> rw [hk] at hopens <;> cases hopens

/-- Processors that go on with what they have begun, at whatever point of the run and in
whatever order: every context stays the one of its feedcode and nothing recorded in it
is lost, exactly if every call of `has` was alone. -/
theorem context_kept_iff (actions : List (Action ι)) :
    (∀ n (moves : List (ι × ContextMemory)), Kept (actions.take n ++ finish moves)) ↔
      ∀ n (hn : n < actions.length), ∀ s, run (actions.take n) = .ok s → s.Alone actions[n] := by
  constructor
  · intro hkept n
    induction n using Nat.strongRecOn with
    | ind n ih =>
        intro hn s hs i incoming sf haction hidle hfeed j hopens
        have hearlier : Undisturbed (actions.take n) := by
          intro past action u hpre hu
          obtain ⟨k, hk, rfl, rfl⟩ := exists_getElem_of_concat hpre
          have hkn : k < n := by
            rw [List.length_take] at hk
            omega
          rw [List.take_take, min_eq_left hkn.le] at hu
          rw [List.getElem_take]
          exact ih k hkn (by omega) u hu
        obtain ⟨moves, hlost⟩ := (hearlier.inv hs).disturbed hs hidle hfeed hopens
        rw [← haction, List.take_append_getElem hn] at hlost
        exact hlost (hkept (n + 1) moves)
  · intro halone n moves
    apply Undisturbed.kept
    intro past action s hpre hs
    obtain ⟨k, hk, rfl, rfl⟩ := exists_getElem_of_concat hpre
    rcases lt_or_ge k (actions.take n).length with hlt | hge
    · rw [List.take_append_of_le_length hlt.le] at hs
      rw [List.getElem_append_left hlt, List.getElem_take]
      rw [List.take_take, min_eq_left (by rw [List.length_take] at hlt; omega)] at hs
      exact halone k (by rw [List.length_take] at hlt; omega) s hs
    · -- going on calls `has` no more
      rw [List.getElem_append_right hge]
      unfold finish
      rw [List.getElem_map]
      intro i incoming sf haction
      cases haction

end Runs

end Processors

/-- The first feed that a processor sees, at a tick of the sample feedcode. -/
def firstMessage (i : Nat) : Incoming := ⟨⟨"feed", 0, i⟩, .statistics (sampleFeed i 1)⟩

/-- Both processors call `has` before either creates the context. The first one
finishes. -/
def racingActions : List (Processors.Action Bool) :=
  [.begin true (firstMessage 0), .begin false (firstMessage 0)] ++
    Processors.finish (List.replicate 5 (true, {}))

/-- The first processor creates the context, and the second one receives a feed in it.
The fresh memory is zero. -/
def overtakingActions : List (Processors.Action Bool) :=
  [.begin true (firstMessage 2), .next true {}, .begin false (firstMessage 0),
    .next false {}, .next false {}]

/-- In the first run the second processor then creates the context again, and the
expected timestamp that was recorded is gone. In the second run, in which `has` is
never called before another processor's `create`, the first processor then initialises
the context and sets the expected timestamp to its own feed's. -/
theorem context_replaced :
    (∃ s, Processors.run racingActions = .ok s ∧
      (s.myMap.get? "rb1000" = some 0 ∧
        (s.recorded "rb1000").map Context.expectTimestamp = some 500000000) ∧
      ∃ t, Processors.run (racingActions ++ Processors.finish [(false, {})]) = .ok t ∧
        t.myMap.get? "rb1000" = some 1 ∧ (t.recorded "rb1000").isNone) ∧
    ∃ s, Processors.run overtakingActions = .ok s ∧
      (s.recorded "rb1000").map Context.expectTimestamp = some 500000000 ∧
      ∃ t, Processors.run (overtakingActions ++ Processors.finish [(true, {}), (true, {})]) =
          .ok t ∧ t.received = s.received ∧
        (t.recorded "rb1000").map Context.expectTimestamp = some 1000000000 := by
  refine ⟨?_, ?_⟩
  · obtain ⟨s, hs, hfirst⟩ : ∃ s, Processors.run racingActions = .ok s ∧
        (s.myMap.get? "rb1000" = some 0 ∧
          (s.recorded "rb1000").map Context.expectTimestamp = some 500000000) := by
      apply exists_ok_of_check
      decide +kernel
    refine ⟨s, hs, hfirst, ?_⟩
    apply exists_ok_of_check
    decide +kernel
  · obtain ⟨s, hs, hfirst, hfeeds⟩ : ∃ s, Processors.run overtakingActions = .ok s ∧
        (s.recorded "rb1000").map Context.expectTimestamp = some 500000000 ∧
        s.received = [sampleFeed 0 1] := by
      apply exists_ok_of_check
      decide +kernel
    refine ⟨s, hs, hfirst, ?_⟩
    rw [hfeeds]
    apply exists_ok_of_check
    decide +kernel

end OLog
