import OLog.Instrumented
import OLog.Isolation
import OLog.Ticks

/-!
The timestamp arithmetic of `exec` in 64 bits. Timestamps come from the
messages unchecked, so a sum or a difference of two of them can leave the
range; what the machine stores then is taken to be the wrapped value. As long
as nothing leaves the range the run is the one in exact arithmetic, and the
expected timestamp does not decrease.
-/

namespace OLog

open Lib Traced

def InInt64 (x : Int) : Prop := -2 ^ 63 ≤ x ∧ x < 2 ^ 63

instance (x : Int) : Decidable (InInt64 x) := by
  unfold InInt64
  infer_instance

/-- Two's complement. -/
def wrap64 (x : Int) : Int := (x + 2 ^ 63) % 2 ^ 64 - 2 ^ 63

theorem wrap64_eq {x : Int} (h : InInt64 x) : wrap64 x = x := by
  unfold InInt64 at h
  unfold wrap64
  omega

def Effect.value? : Effect → Option Int
  | .computes value => some value
  | _ => none

/-- The sums and differences on record. -/
def computed (events : List Effect) : List Int := events.filterMap Effect.value?

@[simp] theorem computed_append (first second : List Effect) :
    computed (first ++ second) = computed first ++ computed second :=
  List.filterMap_append

/-- Nothing leaves the range. -/
def Fitting {α : Type} (x : Traced Effect Fault α) : Prop := ∀ v ∈ computed x.events, InInt64 v

/-- Two computations that are the same unless both leave the range. -/
def Agree {α : Type} (x y : Traced Effect Fault α) : Prop := Fitting x ∨ Fitting y → x = y

section Rules

variable {α β : Type}

theorem agree_refl (x : Traced Effect Fault α) : Agree x x := fun _ => rfl

theorem agree_compute (value : Int) :
    Agree ((Probe.recording wrap64).compute value) ((Probe.recording id).compute value) := by
  intro hfits
  have hvalue : InInt64 value := by
    rcases hfits with h | h
    · exact h value (List.mem_singleton_self value)
    · exact h value (List.mem_singleton_self value)
  simp only [Probe.compute, Probe.traced_fit, wrap64_eq hvalue, id_eq]
  rfl

theorem Fitting.of_bind {x : Traced Effect Fault α} {f : α → Traced Effect Fault β}
    (h : Fitting (x >>= f)) : Fitting x ∧ ∀ a, x.result = .ok a → Fitting (f a) := by
  cases hresult : x.result with
  | error e =>
      rw [bind_of_error hresult] at h
      exact ⟨h, fun a ha => by cases ha⟩
  | ok a =>
      rw [bind_of_ok hresult] at h
      refine ⟨fun v hv => h v ?_, fun b hb v hv => h v ?_⟩
      · simp [hv]
      · cases hb
        simp [hv]

theorem Agree.bind {x y : Traced Effect Fault α} (hxy : Agree x y)
    {f g : α → Traced Effect Fault β} (hfg : ∀ a, Agree (f a) (g a)) :
    Agree (x >>= f) (y >>= g) := by
  intro hfits
  have hsame : x = y := hxy (hfits.imp (fun h => h.of_bind.1) (fun h => h.of_bind.1))
  subst hsame
  cases hresult : x.result with
  | error e => rw [bind_of_error hresult, bind_of_error hresult]
  | ok a =>
      have hrest : f a = g a := hfg a
        (hfits.imp (fun h => h.of_bind.2 a hresult) (fun h => h.of_bind.2 a hresult))
      rw [bind_of_ok hresult, bind_of_ok hresult, hrest]

theorem agree_ite {c : Prop} [Decidable c] {x x' y y' : Traced Effect Fault α}
    (hx : Agree x x') (hy : Agree y y') :
    Agree (if c then x else y) (if c then x' else y') := by
  split_ifs
  · exact hx
  · exact hy

end Rules

namespace Probe

theorem drain_agree (sf : FeedRef) (waiting : List FeedRef)
    (hsorted : waiting.Pairwise (KeyLE FeedRef.exchangeTimestamp)) (et : Int) (context : Context)
    (s : ExecState) :
    Agree ((recording wrap64).drain sf waiting hsorted et context s)
      ((recording id).drain sf waiting hsorted et context s) := by
  induction waiting generalizing et context s with
  | nil => exact agree_refl _
  | cons top rest ih =>
      refine (agree_refl _).bind fun _ => (agree_refl _).bind fun _ => ?_
      refine agree_ite ?_ (agree_ite ?_ ?_)
      · refine (agree_refl _).bind fun _ => (agree_refl _).bind fun _ => ?_
        exact (agree_compute _).bind fun _ => ih hsorted.of_cons _ _ _
      · exact (agree_refl _).bind fun _ => ih hsorted.of_cons _ _ _
      · exact agree_refl _

theorem afterDrain_agree (feedcode : String) (context : Context) (s : ExecState) :
    Agree ((recording wrap64).afterDrain feedcode context s)
      ((recording id).afterDrain feedcode context s) := by
  refine (agree_refl _).bind fun _ => (agree_refl _).bind fun _ => agree_ite ?_ (agree_refl _)
  refine (agree_refl _).bind fun _ => (agree_refl _).bind fun _ => (agree_refl _).bind fun _ => ?_
  exact (agree_compute _).bind fun _ => agree_refl _

theorem receive_agree (s : ExecState) (context : Context) (sf : FeedRef) :
    Agree ((recording wrap64).receive s context sf) ((recording id).receive s context sf) := by
  refine (agree_refl _).bind fun _ => (agree_refl _).bind fun _ => agree_ite ?_ (agree_ite ?_ ?_)
  · exact (agree_compute _).bind fun _ => agree_refl _
  · exact (agree_compute _).bind fun _ => agree_refl _
  · refine (agree_refl _).bind fun _ => (agree_refl _).bind fun _ => ?_
    exact (drain_agree _ _ _ _ _ _).bind fun _ => afterDrain_agree _ _ _

end Probe

/-- If it returns, these are the sums and differences on the way. -/
def Computes {α : Type} (x : Traced Effect Fault α) (values : List Int) : Prop :=
  ∀ a, x.result = .ok a → computed x.events = values

section Computes

variable {α β : Type} {values : List Int}

theorem computes_pure (a : α) : Computes (pure a : Traced Effect Fault α) [] := fun _ _ => rfl

theorem Computes.after {x : Traced Effect Fault α} (hx : computed x.events = [])
    {f : α → Traced Effect Fault β} (hf : ∀ a, Computes (f a) values) :
    Computes (x >>= f) values := by
  intro b hb
  rw [result_bind] at hb
  obtain ⟨a, ha, hfa⟩ := bind_eq_ok.mp hb
  rw [bind_of_ok ha, computed_append, hx, hf a b hfa, List.nil_append]

theorem Computes.compute {value : Int} {f : Int → Traced Effect Fault β}
    (hf : Computes (f value) values) :
    Computes ((Probe.recording id).compute value >>= f) (value :: values) := by
  intro b hb
  exact congrArg (value :: ·) (hf b hb)

theorem computes_ite {c : Prop} [Decidable c] {x y : Traced Effect Fault α}
    (hx : c → Computes x values) (hy : ¬ c → Computes y values) :
    Computes (if c then x else y) values := by
  split_ifs with hc
  · exact hx hc
  · exact hy hc

end Computes

namespace Probe

theorem computed_releaseTop (top : FeedRef) (s : ExecState) :
    computed ((recording id).releaseTop top s).events = [] := by
  unfold releaseTop
  rw [traced_lift]
  cases s.release top.addr <;> rfl

theorem computed_detectContinuity (sf : FeedRef) (tops : List FeedRef) (context : Context)
    (s : ExecState) : computed ((recording id).detectContinuity sf tops context s).events = [] := by
  unfold detectContinuity
  simp only [recording_effect, emit_bind_events]
  split_ifs <;> rfl

theorem computed_opening (s : ExecState) (sf : StatisticsFeed) :
    computed (opening s sf) = [] := by
  unfold opening
  split_ifs <;> rfl

/-- The loop computes the ticks up to the gap. -/
theorem drain_computes (sf : FeedRef) (l : List FeedRef)
    (hsorted : l.Pairwise (KeyLE FeedRef.exchangeTimestamp)) (et : Int) (context : Context)
    (s : ExecState) :
    Computes ((recording id).drain sf l hsorted et context s)
      ((List.range (drainCount l et)).map (fun k => tick et interval (k + 1))) := by
  induction l generalizing et context s with
  | nil =>
      rw [drainCount_nil]
      exact Computes.after rfl fun _ => computes_pure _
  | cons top rest ih =>
      refine Computes.after rfl fun _ => Computes.after rfl fun _ => ?_
      refine computes_ite (fun heq => ?_) fun hne => computes_ite (fun hlt => ?_) fun hge => ?_
      · rw [drainCount_cons_expected heq, List.range_succ_eq_map, List.map_cons, List.map_map]
        refine Computes.after (computed_detectContinuity _ _ _ _) fun _ => ?_
        refine Computes.after (computed_releaseTop _ _) fun _ => ?_
        have hticks : tick et interval (0 + 1) = et + interval := by rw [tick_succ, tick_zero]
        have hrest : ((fun k => tick et interval (k + 1)) ∘ Nat.succ) =
            fun k => tick (et + interval) interval (k + 1) := by
          funext k
          exact (tick_add_step et interval (k + 1)).symm
        rw [hticks, hrest]
        exact Computes.compute (ih hsorted.of_cons _ _ _)
      · rw [drainCount_cons_stale hlt]
        exact Computes.after (computed_releaseTop _ _) fun _ => ih hsorted.of_cons _ _ _
      · have hgt : et < top.exchangeTimestamp := by omega
        rw [drainCount_cons_early hsorted hgt]
        exact Computes.after rfl fun _ => computes_pure _

/-- Whether `exec` gives a tick up is known from the queue that the loop leaves. -/
theorem afterDrain_computes (feedcode : String) (context : Context) (s : ExecState) :
    Computes ((recording id).afterDrain feedcode context s)
      (if context.queue.size > queueLimit then [context.expectTimestamp + interval] else []) := by
  refine Computes.after rfl fun _ => Computes.after rfl fun _ => computes_ite ?_ ?_
  · intro hsize
    rw [if_pos hsize]
    refine Computes.after rfl fun _ => Computes.after rfl fun _ => Computes.after rfl fun _ => ?_
    refine Computes.compute (Computes.after rfl fun _ => ?_)
    exact Computes.after rfl fun _ => computes_pure _
  · intro hsize
    rw [if_neg hsize]
    exact Computes.after rfl fun _ => computes_pure _

end Probe

namespace Tracker

/-- The tick `t` is the first one, from the expected one on, without a feed. -/
def FirstMissing (tracker : Tracker) (sf : StatisticsFeed) (t : Int) : Prop :=
  ∃ k : Nat, t = tick tracker.expectTimestamp interval k ∧
    t ∉ timestamps (sf ::ₘ tracker.waiting) ∧
      ∀ j < k, tick tracker.expectTimestamp interval j ∈ timestamps (sf ::ₘ tracker.waiting)

theorem firstMissing_iff {tracker : Tracker} {sf : StatisticsFeed} {t : Int} :
    tracker.FirstMissing sf t ↔ t = tracker.gap sf := by
  constructor
  · rintro ⟨k, rfl, hmissing, hall⟩
    have hrun : tracker.run sf = k := (gapIndex_eq_iff _ _ interval_pos k).mpr ⟨hmissing, hall⟩
    rw [gap, hrun]
  · rintro rfl
    exact ⟨tracker.run sf, rfl, tracker.gap_notMem sf, fun j hj => mem_of_lt_run hj⟩

/-- The sums and differences that receiving a feed takes. -/
def values (tracker : Tracker) (sf : StatisticsFeed) : List Int :=
  if tracker.expectTimestamp = sf.exchangeTimestamp then [tracker.expectTimestamp + interval]
  else if tracker.expectTimestamp > sf.exchangeTimestamp then
    [tracker.expectTimestamp - sf.exchangeTimestamp]
  else
    (List.range (tracker.run sf)).map (fun k => tick tracker.expectTimestamp interval (k + 1)) ++
      if (tracker.kept sf).card > queueLimit then [tracker.gap sf + interval] else []

/-- What keeps the arithmetic in 64 bits: a feed on time is an interval below
the limit, a late one is not further back than the limit, and an early one
finds the first missing tick at the limit at most, or an interval below it if
that tick is going to be given up. -/
structure Fits (tracker : Tracker) (sf : StatisticsFeed) : Prop where
  onTime : tracker.expectTimestamp = sf.exchangeTimestamp →
    sf.exchangeTimestamp < 2 ^ 63 - interval
  late : sf.exchangeTimestamp < tracker.expectTimestamp →
    tracker.expectTimestamp < sf.exchangeTimestamp + 2 ^ 63
  early : tracker.expectTimestamp < sf.exchangeTimestamp → ∀ t, tracker.FirstMissing sf t →
    t < 2 ^ 63 ∧
      (queueLimit < ((sf ::ₘ tracker.waiting).filter (fun f => t < f.exchangeTimestamp)).card →
        t < 2 ^ 63 - interval)

section Values

variable {tracker : Tracker} {sf : StatisticsFeed}

/-- The ticks up to the gap are in range if the gap is. -/
theorem ticks_fit_iff (het : InInt64 tracker.expectTimestamp) :
    (∀ v ∈ (List.range (tracker.run sf)).map
      (fun k => tick tracker.expectTimestamp interval (k + 1)), InInt64 v) ↔
      tracker.gap sf < 2 ^ 63 := by
  have hmono := tick_strictMono tracker.expectTimestamp interval_pos
  simp only [List.mem_map, List.mem_range, forall_exists_index, and_imp]
  constructor
  · intro hall
    cases hrun : tracker.run sf with
    | zero =>
        rw [gap, hrun, tick_zero]
        exact het.2
    | succ n =>
        rw [gap, hrun]
        exact (hall _ n (by omega) rfl).2
  · rintro hgap v k hk rfl
    have hlow : tracker.expectTimestamp ≤ tick tracker.expectTimestamp interval (k + 1) :=
      le_tick _ interval_pos _
    have hhigh : tick tracker.expectTimestamp interval (k + 1) ≤ tracker.gap sf :=
      hmono.monotone hk
    exact ⟨het.1.trans hlow, hhigh.trans_lt hgap⟩

theorem values_fit_iff (het : InInt64 tracker.expectTimestamp) :
    (∀ v ∈ tracker.values sf, InInt64 v) ↔ tracker.Fits sf := by
  have hinterval := interval_pos
  unfold values
  rcases lt_trichotomy sf.exchangeTimestamp tracker.expectTimestamp with hlate | htime | hearly
  · rw [if_neg hlate.ne', if_pos hlate]
    simp only [List.mem_singleton, forall_eq, InInt64]
    constructor
    · intro h
      exact ⟨fun heq => by omega, fun _ => by omega, fun hearly => by omega⟩
    · intro h
      have := h.late hlate
      omega
  · rw [if_pos htime.symm]
    simp only [List.mem_singleton, forall_eq, InInt64]
    unfold InInt64 at het
    constructor
    · intro h
      exact ⟨fun _ => by omega, fun hlate => by omega, fun hearly => by omega⟩
    · intro h
      have := h.onTime htime.symm
      omega
  · rw [if_neg hearly.ne, if_neg hearly.not_gt]
    simp only [List.mem_append, or_imp, forall_and]
    rw [ticks_fit_iff het]
    have hlow : -2 ^ 63 ≤ tracker.gap sf := het.1.trans (tracker.le_gap sf)
    constructor
    · rintro ⟨hgap, hmiss⟩
      refine ⟨fun heq => by omega, fun hlate => by omega, ?_⟩
      intro _ t ht
      rw [firstMissing_iff] at ht
      subst ht
      refine ⟨hgap, ?_⟩
      intro (hsize : queueLimit < (tracker.kept sf).card)
      rw [if_pos hsize] at hmiss
      have := (hmiss _ (List.mem_singleton_self _)).2
      omega
    · intro h
      obtain ⟨hgap, hmiss⟩ := h.early hearly _ (firstMissing_iff.mpr rfl)
      refine ⟨hgap, ?_⟩
      intro v hv
      split_ifs at hv with hsize
      · have hlimit := hmiss hsize
        rw [List.mem_singleton.mp hv]
        unfold InInt64
        omega
      · cases hv

/-- Under the condition the expected timestamp stays in range. -/
theorem receive_inInt64 (het : InInt64 tracker.expectTimestamp) (h : tracker.Fits sf) :
    InInt64 (tracker.receive sf).1.expectTimestamp := by
  have hle := receive_expect_le tracker sf
  refine ⟨het.1.trans hle, ?_⟩
  rcases lt_trichotomy sf.exchangeTimestamp tracker.expectTimestamp with hlate | htime | hearly
  · rw [receive_late hlate]
    exact het.2
  · rw [receive_onTime htime.symm]
    have := h.onTime htime.symm
    change tracker.expectTimestamp + interval < 2 ^ 63
    omega
  · obtain ⟨hgap, hmiss⟩ := h.early hearly _ (firstMissing_iff.mpr rfl)
    by_cases hsize : queueLimit < (tracker.kept sf).card
    · have hlimit := hmiss hsize
      rw [receive_early_miss hearly hsize]
      change tracker.gap sf + interval < 2 ^ 63
      omega
    · rw [receive_early_wait hearly (not_lt.mp hsize)]
      exact hgap

end Values

end Tracker

namespace Probe

theorem receive_computes (s : ExecState) (context : Context) (sf : FeedRef) :
    Computes ((recording id).receive s context sf) (context.view.values sf.feed) := by
  have hts : sf.exchangeTimestamp = sf.feed.exchangeTimestamp := rfl
  have het : context.view.expectTimestamp = context.expectTimestamp := rfl
  refine Computes.after rfl fun _ => Computes.after rfl fun _ => ?_
  unfold Tracker.values
  rw [hts, het]
  refine computes_ite (fun htime => ?_) fun hne => computes_ite (fun hlate => ?_) fun hnot => ?_
  · rw [if_pos htime]
    refine Computes.compute (Computes.after rfl fun _ => Computes.after rfl fun _ => ?_)
    exact Computes.after rfl fun _ => computes_pure _
  · rw [if_neg hne, if_pos hlate]
    exact Computes.compute (Computes.after rfl fun _ => computes_pure _)
  · rw [if_neg hne, if_neg hnot]
    refine Computes.after rfl fun _ => Computes.after rfl fun _ => ?_
    intro t ht
    rw [result_bind] at ht
    obtain ⟨out, hout, hafter⟩ := bind_eq_ok.mp ht
    have hdrain := hout
    rw [drainPushed, drain_result] at hdrain
    obtain ⟨hgap, hleft⟩ := drain_eq_ok _ _ _ _ _ _ hdrain
    have hsize : out.2.1.queue.size = (context.view.kept sf.feed).card := by
      rw [MinQueue.size, hleft, drainGap_push, ← left_push, Multiset.coe_card, List.length_map]
    have hcomputes := afterDrain_computes sf.feed.feedcode
      {out.2.1 with expectTimestamp := out.1} out.2.2 t hafter
    rw [bind_of_ok hout, computed_append]
    refine congrArg₂ (· ++ ·) ?_ (hcomputes.trans ?_)
    · rw [← drainCount_push]
      exact drain_computes _ _ _ _ _ _ out hout
    · rw [← drainGap_push, ← hgap, ← hsize]

/-- A message is the same in 64-bit arithmetic unless something leaves the
range, and in exact arithmetic nothing does exactly if the feed fits. -/
theorem exec_fits_iff {s t : ExecState} {m : Nat} {msg : MyMessage} {r : FeedRef}
    (hmsg : s.heap.get? m = some msg) (href : msg.ref? = some r)
    (hexec : DeficiencyProcessor.exec s m = .ok t)
    (hrange : InInt64 (s.contextFor r.feed).view.expectTimestamp) :
    Agree ((recording wrap64).exec s m) ((recording id).exec s m) ∧
      (Fitting ((recording id).exec s m) ↔ (s.contextFor r.feed).view.Fits r.feed) := by
  obtain ⟨p, hp⟩ := recording_exec hmsg href
  have hfitting : ∀ fit, Fitting ((recording fit).exec s m) ↔
      Fitting ((recording fit).receive p (s.contextFor r.feed) r) := by
    intro fit
    rw [hp fit]
    unfold Fitting
    rw [computed_append, computed_opening, List.nil_append]
  constructor
  · intro hfits
    have hsame := receive_agree p (s.contextFor r.feed) r
      (hfits.imp (hfitting wrap64).mp (hfitting id).mp)
    rw [hp wrap64, hp id, hsame]
  · have hresult : ((recording id).exec s m).result = .ok t := (exec_result _ _ s m).trans hexec
    rw [hp id] at hresult
    rw [hfitting, ← Tracker.values_fit_iff hrange]
    unfold Fitting
    rw [receive_computes p (s.contextFor r.feed) r t hresult]

end Probe

section Stream

variable {code : String}

/-- One message in 64-bit arithmetic. -/
def step64 (s : ExecState) (incoming : Incoming) : Traced Effect Fault ExecState :=
  (Probe.recording wrap64).exec {s with heap := (s.heap.alloc incoming.toMessage).2} s.heap.brk

/-- The messages of one feedcode in 64-bit arithmetic. -/
def stream64 (arrivals : List (Arrival code)) : Except Fault ExecState :=
  arrivals.foldlM (fun s a => (step64 s a.incoming).result) Session.start.state

/-- The message computes nothing outside the range, and the expected timestamp
does not go back. -/
def Safe (s : ExecState) (a : Arrival code) (t : ExecState) : Prop :=
  (∀ v ∈ computed (step64 s a.incoming).events, InInt64 v) ∧
    ∀ c ∈ s.contextMap.getContext code, ∀ c' ∈ t.contextMap.getContext code,
      c.expectTimestamp ≤ c'.expectTimestamp

/-- What holds while nothing has left the range. -/
structure Bounded (code : String) (s : ExecState) : Prop where
  owned : s.Owned
  range : ∀ c ∈ s.contextMap.getContext code, InInt64 c.expectTimestamp

theorem start_bounded : Bounded code Session.start.state := by
  refine ⟨start_owned, ?_⟩
  intro c hc
  cases hc

theorem Bounded.contextFor {s : ExecState} (h : Bounded code s) (a : Arrival code)
    (ha : InInt64 a.timestamp) : InInt64 (s.contextFor a.sf).expectTimestamp := by
  unfold ExecState.contextFor
  rw [a.feedcode_eq]
  cases hcontext : s.contextMap.getContext code with
  | none => exact ha
  | some c => exact h.range c hcontext

/-- The expected timestamp after an execution is the tracker's. -/
theorem Executed.expect {s t : ExecState} {m : Nat} {r : FeedRef} {l : List FeedRef}
    (h : Executed s m r l t) {c : Context}
    (hc : c ∈ t.contextMap.getContext r.feed.feedcode) :
    c.expectTimestamp = ((s.contextFor r.feed).view.receive r.feed).1.expectTimestamp := by
  have htracker := h.tracker
  rw [tracker_exec_eq, ExecState.tracker, Option.mem_def.mp hc, Option.map_some] at htracker
  exact congrArg Tracker.expectTimestamp (Option.some.inj htracker)

theorem Bounded.step64_iff {s : ExecState} (h : Bounded code s) (a : Arrival code)
    (ha : InInt64 a.timestamp) :
    ((s.contextFor a.sf).view.Fits a.sf →
      ∃ t, (step64 s a.incoming).result = .ok t ∧ Safe s a t ∧ Bounded code t) ∧
    ∀ t, (step64 s a.incoming).result = .ok t → Safe s a t →
      (s.contextFor a.sf).view.Fits a.sf := by
  let ready : ExecState := {s with heap := (s.heap.alloc a.incoming.toMessage).2}
  have hready : ready.Owned := h.owned.alloc a.incoming.toMessage_places
  have hget : ready.heap.get? s.heap.brk = some (a.incoming.toMessage (s.heap.brk + 1)) :=
    Heap.alloc_get?_new _ _
  have href := toMessage_statistics_ref? a.message a.sf (s.heap.brk + 1)
  obtain ⟨t, l, hexec, hdone⟩ := exec_executed hready hget href rfl
  have hrange : InInt64 (s.contextFor a.sf).view.expectTimestamp := h.contextFor a ha
  have hresult : ((Probe.recording id).exec ready s.heap.brk).result = .ok t :=
    (Probe.exec_result _ _ _ _).trans hexec
  obtain ⟨hagree, hexact⟩ := Probe.exec_fits_iff hget href hexec hrange
  constructor
  · intro hfits
    have hfitsId := hexact.mpr hfits
    have hsame := hagree (Or.inr hfitsId)
    have hfitting : Fitting (step64 s a.incoming) := by
      change Fitting ((Probe.recording wrap64).exec ready s.heap.brk)
      rw [hsame]
      exact hfitsId
    have hexpect : ∀ c ∈ t.contextMap.getContext code, c.expectTimestamp =
        ((s.contextFor a.sf).view.receive a.sf).1.expectTimestamp := by
      intro c hc
      rw [← a.feedcode_eq] at hc
      exact hdone.expect hc
    refine ⟨t, (congrArg Traced.result hsame).trans hresult, ⟨hfitting, ?_⟩,
      hdone.owned hready hget href rfl, ?_⟩
    · intro c hc c' hc'
      have hfor : s.contextFor a.sf = c := by
        simp [ExecState.contextFor, a.feedcode_eq, Option.mem_def.mp hc]
      rw [hexpect c' hc', hfor]
      exact Tracker.receive_expect_le c.view a.sf
    · intro c hc
      rw [hexpect c hc]
      exact Tracker.receive_inInt64 hrange hfits
  · intro u _ hsafe
    have hsame := hagree (Or.inl hsafe.1)
    refine hexact.mp ?_
    rw [← hsame]
    exact hsafe.1

/-- For every sequence of Statistics messages of one feedcode with 64-bit
timestamps: no message computes a timestamp outside the range or takes the
expected one back, exactly if every feed fits the state it finds. -/
theorem timestamps_in_range_iff (arrivals : List (Arrival code))
    (hrange : ∀ a ∈ arrivals, InInt64 a.timestamp) :
    (∀ n (hn : n < arrivals.length), ∃ s t, stream64 (arrivals.take n) = .ok s ∧
        (step64 s arrivals[n].incoming).result = .ok t ∧ Safe s arrivals[n] t) ↔
      ∀ n (hn : n < arrivals.length), ∀ s, stream64 (arrivals.take n) = .ok s →
        (s.contextFor arrivals[n].sf).view.Fits arrivals[n].sf := by
  refine forall_step_iff (fun s (a : Arrival code) => (step64 s a.incoming).result)
    (I := Bounded code) (C := fun s a => (s.contextFor a.sf).view.Fits a.sf) (Q := Safe)
    arrivals start_bounded ?_
  intro s a ha h
  exact h.step64_iff a (hrange a ha)

/-- A message at a timestamp of its own. -/
def arrivalAt (t : Int) : Arrival "rb1000" :=
  ⟨⟨"feed", 0, 0⟩, {sampleFeed 0 1 with exchangeTimestamp := t}, rfl⟩

/-- The greatest timestamp whose successor is in range, then the greatest delay. -/
def limitArrivals : List (Arrival "rb1000") := [arrivalAt (2 ^ 63 - 1 - interval), arrivalAt 0]

theorem timestamps_in_range_limits :
    (∀ a ∈ limitArrivals, InInt64 a.timestamp) ∧
    (∀ n (hn : n < limitArrivals.length), ∀ s, stream64 (limitArrivals.take n) = .ok s →
      (s.contextFor limitArrivals[n].sf).view.Fits limitArrivals[n].sf) ∧
    ∀ n (hn : n < limitArrivals.length), ∃ s t, stream64 (limitArrivals.take n) = .ok s ∧
      (step64 s limitArrivals[n].incoming).result = .ok t ∧ Safe s limitArrivals[n] t := by
  have hrange : ∀ a ∈ limitArrivals, InInt64 a.timestamp := by decide
  have hfits : ∀ n (hn : n < limitArrivals.length), ∀ s,
      stream64 (limitArrivals.take n) = .ok s →
        (s.contextFor limitArrivals[n].sf).view.Fits limitArrivals[n].sf := by
    intro n hn s hs
    obtain rfl | rfl : n = 0 ∨ n = 1 := by
      change n < 2 at hn
      omega
    · cases hs
      change (Session.start.state.contextFor (arrivalAt (2 ^ 63 - 1 - interval)).sf).view.Fits
        (arrivalAt (2 ^ 63 - 1 - interval)).sf
      exact ⟨fun _ => by decide, fun h => absurd h (by decide), fun h => absurd h (by decide)⟩
    · change (s.contextFor (arrivalAt 0).sf).view.Fits (arrivalAt 0).sf
      obtain ⟨s', hs', het⟩ : ∃ s, stream64 [arrivalAt (2 ^ 63 - 1 - interval)] = .ok s ∧
          (s.contextFor (arrivalAt 0).sf).view.expectTimestamp = 2 ^ 63 - 1 := by
        apply exists_ok_of_check
        decide +kernel
      obtain rfl : s = s' := Except.ok.inj (hs.symm.trans hs')
      constructor
      · exact fun h => absurd (het.symm.trans h) (by decide)
      · exact fun _ => het.trans_lt (by decide)
      · exact fun h => absurd (het.symm.trans_lt h) (by decide)
  exact ⟨hrange, hfits, (timestamps_in_range_iff limitArrivals hrange).mpr hfits⟩

/-- The first message leaves the greatest timestamp as the expected one. The
second is on time: the sum leaves the range, and the expected timestamp that
is stored is far below zero. -/
theorem expected_timestamp_overflows :
    ∃ s, stream64 [arrivalAt (2 ^ 63 - 1 - interval)] = .ok s ∧
      (s.contextMap.getContext "rb1000").map Context.expectTimestamp = some (2 ^ 63 - 1) ∧
      computed (step64 s (arrivalAt (2 ^ 63 - 1)).incoming).events = [2 ^ 63 - 1 + interval] ∧
      ¬ InInt64 (2 ^ 63 - 1 + interval) ∧
      (step64 s (arrivalAt (2 ^ 63 - 1)).incoming).result.toOption.map (fun t =>
        (t.contextMap.getContext "rb1000").map Context.expectTimestamp) =
          some (some (-2 ^ 63 - 1 + interval)) := by
  apply exists_ok_of_check
  decide +kernel

end Stream

end OLog
