import OLog.Accounting

/-!
When a feed that waits is overdue. The drain loop leaves only feeds behind the
expected tick, but the on-time exit and the miss branch advance the expected
tick without another look at the queue, so a feed that waits at the next tick
stays there. The queue is drained after every message exactly if no message
takes one of these two exits with a feed waiting at or before the next tick.
-/

namespace OLog

open Lib

namespace Tracker

/-- Every waiting feed lies behind the expected tick. -/
def Drained (tracker : Tracker) : Prop :=
  ∀ f ∈ tracker.waiting, tracker.expectTimestamp < f.exchangeTimestamp

/-- The message does not advance the expected tick onto a waiting feed without
a drain. -/
def Unblocked (tracker : Tracker) (sf : StatisticsFeed) : Prop :=
  (tracker.expectTimestamp = sf.exchangeTimestamp →
    ∀ f ∈ tracker.waiting, tracker.expectTimestamp + interval < f.exchangeTimestamp) ∧
  (tracker.expectTimestamp < sf.exchangeTimestamp → queueLimit ≤ tracker.waiting.card →
    ∀ f ∈ sf ::ₘ tracker.waiting, tracker.expectTimestamp + interval < f.exchangeTimestamp)

theorem opened_drained (sf : StatisticsFeed) : (opened sf).Drained := by
  intro f hf
  simp [opened] at hf

theorem opened_unblocked (sf : StatisticsFeed) : (opened sf).Unblocked sf := by
  constructor
  · intro _ f hf
    simp [opened] at hf
  · intro hlt
    exact absurd hlt (lt_irrefl _)

/-- An early feed in a drained queue: the expected tick is itself the gap. -/
theorem Drained.gap_eq {tracker : Tracker} (h : tracker.Drained) {sf : StatisticsFeed}
    (hearly : tracker.expectTimestamp < sf.exchangeTimestamp) :
    tracker.run sf = 0 ∧ tracker.gap sf = tracker.expectTimestamp ∧
      tracker.kept sf = sf ::ₘ tracker.waiting := by
  have hbehind : ∀ f ∈ sf ::ₘ tracker.waiting,
      tracker.expectTimestamp < f.exchangeTimestamp := by
    intro f hf
    rcases Multiset.mem_cons.mp hf with rfl | hf
    · exact hearly
    · exact h f hf
  have hnot : tracker.expectTimestamp ∉ timestamps (sf ::ₘ tracker.waiting) := by
    intro hmem
    obtain ⟨f, hf, heq⟩ := mem_timestamps.mp hmem
    have := hbehind f hf
    omega
  have hrun : tracker.run sf = 0 := gapIndex_of_notMem interval_pos hnot
  have hgap : tracker.gap sf = tracker.expectTimestamp := by
    unfold gap
    rw [hrun, tick_zero]
  refine ⟨hrun, hgap, ?_⟩
  unfold kept
  rw [hgap]
  exact Multiset.filter_eq_self.mpr hbehind

/-- From a drained state the next state is drained exactly if the message is
unblocked. -/
theorem receive_drained_iff {tracker : Tracker} (h : tracker.Drained) (sf : StatisticsFeed) :
    (tracker.receive sf).1.Drained ↔ tracker.Unblocked sf := by
  rcases lt_trichotomy tracker.expectTimestamp sf.exchangeTimestamp with ht | ht | ht
  · obtain ⟨_, hgap, hkept⟩ := h.gap_eq ht
    have hcard : (tracker.kept sf).card = tracker.waiting.card + 1 := by
      rw [hkept, Multiset.card_cons]
    have hnotOnTime : tracker.expectTimestamp ≠ sf.exchangeTimestamp := by omega
    by_cases hsize : queueLimit < (tracker.kept sf).card
    · rw [receive_early_miss ht hsize]
      have hfull : queueLimit ≤ tracker.waiting.card := by omega
      simp only [Drained, Unblocked, drained_waiting, hkept, hgap]
      constructor
      · intro hall
        exact ⟨fun heq => absurd heq hnotOnTime, fun _ _ => hall⟩
      · intro hun
        exact hun.2 ht hfull
    · rw [receive_early_wait ht (by omega)]
      have hroom : ¬ queueLimit ≤ tracker.waiting.card := by omega
      constructor
      · intro _
        exact ⟨fun heq => absurd heq hnotOnTime, fun _ hfull => absurd hfull hroom⟩
      · intro _ f hf
        exact (Multiset.mem_filter.mp hf).2
  · rw [receive_onTime ht]
    constructor
    · intro hall
      exact ⟨fun _ => hall, fun hlt => by omega⟩
    · intro hun
      exact hun.1 ht
  · rw [receive_late ht]
    constructor
    · intro _
      exact ⟨fun heq => by omega, fun hlt => by omega⟩
    · intro _
      exact h

/-- With a drained queue, no miss and no tick missing up to the last one, all
feeds have left. -/
theorem Account.complete {start : Int} {feeds : List StatisticsFeed} {tracker : Tracker}
    {n N : Nat} {L : Ledger Int} (h : Account start feeds tracker [] n L) (hn : 1 ≤ n)
    (hdrained : tracker.Drained)
    (hall : ∀ j ≤ N, ∃ f ∈ feeds, f.exchangeTimestamp = tick start interval j)
    (hlast : ∀ f ∈ feeds, f.exchangeTimestamp ≤ tick start interval N) :
    tracker.waiting = 0 ∧ tracker.expectTimestamp = tick start interval (N + 1) := by
  have hexpect : tracker.expectTimestamp = tick start interval n := by
    rw [← h.books.next, h.balanced.next_eq]
  -- a received tick at `n` would still wait, against drainedness
  have hpast : N + 1 ≤ n := by
    by_contra hle
    obtain ⟨f, hf, heq⟩ := hall n (by omega)
    have hwaits := (h.books.holds.mem_iff (by omega)).mpr hf
    have := hdrained f hwaits
    omega
  -- the last tick passed has been received, so it is not after `N`
  have hnot : n ≤ N + 1 := by
    have hbelow : tick start interval (n - 1) < L.next := by
      rw [h.balanced.next_eq]
      exact tick_strictMono start interval_pos (by omega)
    have hone := h.balanced.booked_once interval_pos hbelow
    rw [h.books.missed, List.count_nil, Nat.add_zero] at hone
    have hpassed : tick start interval (n - 1) ∈ L.passed := by
      apply List.count_pos_iff.mp
      omega
    obtain ⟨m, _, hmem⟩ := h.passed _ hpassed
    obtain ⟨f, hf, heq⟩ := List.mem_map.mp hmem
    have hle := hlast f (List.mem_of_mem_take hf)
    rw [heq] at hle
    have := (tick_strictMono start interval_pos).le_iff_le.mp hle
    omega
  have hnN : n = N + 1 := by omega
  refine ⟨?_, by rw [hexpect, hnN]⟩
  apply Multiset.eq_zero_of_forall_notMem
  intro f hf
  have hbehind := hdrained f hf
  have hle := hlast f ((h.books.holds.mem_iff (by omega)).mp hf)
  have hlt : tick start interval N < tick start interval n :=
    tick_strictMono start interval_pos (by omega)
  omega

end Tracker

namespace Context

def Drained (context : Context) : Prop :=
  ∀ r ∈ context.queue.toList, context.expectTimestamp < r.exchangeTimestamp

/-- The on-time exit finds nothing waiting at or before the next tick, and
neither does the miss branch, which is taken once `queueLimit` feeds wait. -/
def Unblocked (context : Context) (sf : StatisticsFeed) : Prop :=
  (context.expectTimestamp = sf.exchangeTimestamp →
    ∀ r ∈ context.queue.toList, context.expectTimestamp + interval < r.exchangeTimestamp) ∧
  (context.expectTimestamp < sf.exchangeTimestamp → queueLimit ≤ context.queue.size →
    context.expectTimestamp + interval < sf.exchangeTimestamp ∧
      ∀ r ∈ context.queue.toList, context.expectTimestamp + interval < r.exchangeTimestamp)

instance (context : Context) : Decidable context.Drained := by
  unfold Drained
  infer_instance

instance (context : Context) (sf : StatisticsFeed) : Decidable (context.Unblocked sf) := by
  unfold Unblocked
  infer_instance

theorem forall_view_waiting (context : Context) (p : Int → Prop) :
    (∀ f ∈ context.view.waiting, p f.exchangeTimestamp) ↔
      ∀ r ∈ context.queue.toList, p r.exchangeTimestamp := by
  simp [view, FeedRef.exchangeTimestamp]

theorem drained_view (context : Context) : context.view.Drained ↔ context.Drained :=
  context.forall_view_waiting _

theorem unblocked_view (context : Context) (sf : StatisticsFeed) :
    context.view.Unblocked sf ↔ context.Unblocked sf := by
  have hcard : context.view.waiting.card = context.queue.size := by
    simp [view, MinQueue.size]
  have hwaiting := context.forall_view_waiting (context.expectTimestamp + interval < ·)
  unfold Tracker.Unblocked Unblocked
  rw [hcard]
  simp only [Multiset.mem_cons, forall_eq_or_imp]
  change (_ → ∀ f ∈ context.view.waiting, context.expectTimestamp + interval < _) ∧
    (_ → _ → _ ∧ ∀ f ∈ context.view.waiting, context.expectTimestamp + interval < _) ↔ _
  rw [hwaiting]
  rfl

end Context

section Stream

variable {code : String}

/-- The context after one more message, from a drained one. -/
theorem contextAfter_drained_iff {seen : List (Arrival code)}
    (hdrained : ∀ context ∈ contextAfter seen, context.Drained) (a : Arrival code) :
    (∀ context ∈ contextAfter (seen ++ [a]), context.Drained) ↔
      ∀ context ∈ contextAfter seen, context.Unblocked a.sf := by
  obtain ⟨next, hnext, hview⟩ := contextAfter_concat seen a
  rw [hnext]
  cases hbefore : contextAfter seen with
  | none =>
      rw [hbefore] at hview
      have hopened := (Tracker.receive_drained_iff (Tracker.opened_drained a.sf) a.sf).mpr
        (Tracker.opened_unblocked a.sf)
      have hnextDrained : next.Drained := by
        rw [← next.drained_view, hview]
        exact hopened
      simpa using hnextDrained
  | some context =>
      rw [hbefore] at hview
      have hcontext := context.drained_view.mpr (hdrained context hbefore)
      have hstep := Tracker.receive_drained_iff hcontext a.sf
      simp only [Option.mem_def, Option.some.injEq, forall_eq']
      rw [← next.drained_view, ← context.unblocked_view, ← hstep, hview]
      rfl

/-- The queue is drained after every message exactly if every message finds
the queue unblocked. -/
theorem always_drained_iff (arrivals : List (Arrival code)) :
    (∀ n ≤ arrivals.length, ∀ context ∈ contextAfter (arrivals.take n), context.Drained) ↔
      ∀ n (hn : n < arrivals.length), ∀ context ∈ contextAfter (arrivals.take n),
        context.Unblocked arrivals[n].sf := by
  apply forall_take_iff (P := fun seen => ∀ context ∈ contextAfter seen, context.Drained)
    (C := fun seen a => ∀ context ∈ contextAfter seen, context.Unblocked a.sf)
  · simp
  · intro seen a _ hdrained
    exact contextAfter_drained_iff hdrained a

/-- The queue of a stream is always drained exactly if no message is blocked;
and in that case, once all ticks up to the last have arrived without a miss,
the queue is empty and the next tick is expected. -/
theorem queue_drained_iff_unblocked (first : Arrival code) (rest : List (Arrival code)) :
    ∃ s context, stream (first :: rest) = .ok s ∧
      s.state.contextMap.getContext code = some context ∧
      ((∀ n ≤ (first :: rest).length, ∀ before ∈ contextAfter ((first :: rest).take n),
          before.Drained) ↔
        ∀ n (hn : n < (first :: rest).length),
          ∀ before ∈ contextAfter ((first :: rest).take n),
            before.Unblocked (first :: rest)[n].sf) ∧
      ((∀ n (hn : n < (first :: rest).length),
          ∀ before ∈ contextAfter ((first :: rest).take n),
            before.Unblocked (first :: rest)[n].sf) →
        ∀ N : Nat,
          (∀ j ≤ N, ∃ a ∈ first :: rest, a.timestamp = first.timestamp + j * interval) →
          (∀ a ∈ first :: rest, a.timestamp ≤ first.timestamp + N * interval) →
          s.missTicks = [] →
          context.queue.toList = [] ∧
            context.expectTimestamp = first.timestamp + N * interval + interval) := by
  obtain ⟨s, context, n, L, hrun, hcontext, hn, hacc⟩ := stream_account first rest
  refine ⟨s, context, hrun, hcontext, always_drained_iff _, ?_⟩
  intro hun N hall hlast hmiss
  have htick : ∀ j : Nat, first.timestamp + j * interval = tick first.timestamp interval j := by
    intro j
    simp [tick]
  have hafter : contextAfter (first :: rest) = some context := by
    simp [contextAfter, hrun, hcontext]
  have hdrained : context.view.Drained := by
    rw [context.drained_view]
    apply (always_drained_iff _).mpr hun _ le_rfl
    rw [List.take_length]
    exact hafter
  rw [hmiss] at hacc
  obtain ⟨hempty, hexpect⟩ := hacc.complete hn hdrained (N := N)
    (fun j hj => by
      obtain ⟨a, ha, heq⟩ := hall j hj
      exact ⟨a.sf, List.mem_map_of_mem ha, by rw [← htick]; exact heq⟩)
    (fun f hf => by
      obtain ⟨a, ha, rfl⟩ := List.mem_map.mp hf
      rw [← htick]
      exact hlast a ha)
  refine ⟨?_, ?_⟩
  · simpa [Context.view] using hempty
  · rw [htick, ← tick_succ]
    exact hexpect

/-- Ticks in order leave nothing behind. -/
theorem queue_drained_in_order :
    ∃ s context, stream [sampleArrival 0 1, sampleArrival 1 2, sampleArrival 2 3] = .ok s ∧
      s.state.contextMap.getContext "rb1000" = some context ∧
      context.queue.toList = [] ∧ context.expectTimestamp = 3 * interval := by
  obtain ⟨s, context, hrun, hcontext, _, hcomplete⟩ :=
    queue_drained_iff_unblocked (sampleArrival 0 1) [sampleArrival 1 2, sampleArrival 2 3]
  have hmiss : (stream [sampleArrival 0 1, sampleArrival 1 2, sampleArrival 2 3]).toOption.map
      Session.missTicks = some [] := by
    decide +kernel
  rw [hrun] at hmiss
  obtain ⟨hempty, hexpect⟩ := hcomplete (by decide +kernel) 2 (by decide) (by decide)
    (Option.some.inj hmiss)
  exact ⟨s, context, hrun, hcontext, hempty, hexpect⟩

/-- Ticks 0, 2 and 1 have all arrived and nothing was missed, but tick 2 still
waits although it is expected. -/
theorem expected_feed_still_waits :
    ∃ s context, stream [sampleArrival 0 1, sampleArrival 2 3, sampleArrival 1 2] = .ok s ∧
      s.state.contextMap.getContext "rb1000" = some context ∧ s.missTicks = [] ∧
      context.queue.toList.map FeedRef.exchangeTimestamp = [2 * interval] ∧
      context.expectTimestamp = 2 * interval ∧ ¬ context.Drained := by
  apply stream_exists_of_check
  decide +kernel

end Stream

end OLog
