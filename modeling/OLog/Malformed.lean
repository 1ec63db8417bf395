import OLog.Publish

/-!
Records that are not well formed. `build` reports a failure only if an
extraction throws, which with the default exception mask none does; so it
accepts every text, and the constructor of a message would not look at the
result anyway. The partly filled feed goes through `exec` like any other: the
contexts stay as they are exactly if its timestamp makes it late.
-/

namespace OLog

open Lib DeficiencyProcessor EventLoop

/-- The pieces of the text between commas begin with one for each member, which
holds a value of the member's type and nothing else. -/
def WellFormed {σ : Type} (layout : List (StreamField σ)) (detail : String) : Prop :=
  List.Forall₂ (fun field piece => field.kind.Holds piece) layout
    ((detail.toList.splitOn ',').take layout.length)

def StatisticsFeed.WellFormed (detail : String) : Prop := OLog.WellFormed layout detail

def PriceFeed.WellFormed (detail : String) : Prop := OLog.WellFormed layout detail

instance {σ : Type} (layout : List (StreamField σ)) (detail : String) :
    Decidable (WellFormed layout detail) := by
  unfold WellFormed
  infer_instance

instance (detail : String) : Decidable (StatisticsFeed.WellFormed detail) :=
  inferInstanceAs (Decidable (WellFormed _ detail))

instance (detail : String) : Decidable (PriceFeed.WellFormed detail) :=
  inferInstanceAs (Decidable (WellFormed _ detail))

example : StatisticsFeed.WellFormed
    "rb1000,1,2.5,2,2,2,X,2.5,10,25.0,10,3,0,7,1500000000,3,1,-4,1500000000" := by
  decide +kernel

/-- `build` succeeds on every text. -/
theorem buildFrom_returns_zero {σ : Type} (round : Rat → Rat) (layout : List (StreamField σ))
    (body : List Char) (feed : σ) : (buildFrom round layout body feed).1 = 0 := by
  unfold buildFrom
  have hthrown := extractAll_not_thrown round layout feed
    (IStream.ofText (body.map (fun c => if c = ',' then ' ' else c))) rfl
  simp [hthrown]

/-- So the demand that it fails on what is not well formed is met by well-formed
texts only. -/
theorem rejects_iff {σ : Type} (round : Rat → Rat) (layout : List (StreamField σ))
    (detail : String) (feed : σ) :
    (¬ WellFormed layout detail → (buildFrom round layout detail.toList feed).1 ≠ 0) ↔
      WellFormed layout detail := by
  rw [buildFrom_returns_zero]
  constructor
  · intro hrejects
    by_contra hmalformed
    exact hrejects hmalformed rfl
  · intro hformed hmalformed
    exact absurd hformed hmalformed

namespace Tracker

/-- A feed that is not late leaves its mark. -/
theorem receive_changes {tracker : Tracker} {sf : StatisticsFeed}
    (h : tracker.expectTimestamp ≤ sf.exchangeTimestamp) : (tracker.receive sf).1 ≠ tracker := by
  have hpos := interval_pos
  have hmoves : ∀ next : Tracker, tracker.expectTimestamp < next.expectTimestamp →
      next ≠ tracker := by
    rintro next hlt rfl
    omega
  rcases h.lt_or_eq with ht | ht
  · have hle := tracker.le_gap sf
    by_cases hsize : queueLimit < (tracker.kept sf).card
    · rw [receive_early_miss ht hsize]
      exact hmoves _ (by change _ < tracker.gap sf + interval; omega)
    · rw [receive_early_wait ht (by omega)]
      rcases hle.lt_or_eq with hgap | hgap
      · exact hmoves _ hgap
      · -- nothing could be released, so the feed has joined the queue
        intro heq
        have hwaiting : tracker.kept sf = tracker.waiting := congrArg Tracker.waiting heq
        have hcount := congrArg (Multiset.count sf) hwaiting
        unfold kept at hcount
        rw [Multiset.count_filter_of_pos (by omega), Multiset.count_cons_self] at hcount
        omega
  · rw [receive_onTime ht]
    exact hmoves _ (by change _ < tracker.expectTimestamp + interval; omega)

end Tracker

theorem Context.eq_of_view {context context' : Context} (hview : context'.view = context.view)
    (hqueue : context'.queue.toList = context.queue.toList) : context' = context := by
  obtain ⟨⟨queue, _⟩, _, _, _⟩ := context
  obtain ⟨⟨queue', _⟩, _, _, _⟩ := context'
  cases hqueue
  simp only [Context.view, Tracker.mk.injEq, true_and] at hview
  obtain ⟨rfl, rfl, rfl⟩ := hview
  rfl

/-- An execution leaves every context as it was, and creates none, exactly if
the feed is late. -/
theorem Executed.contexts_kept_iff {s t : ExecState} {m : Nat} {r : FeedRef}
    {released : List FeedRef} (h : Executed s m r released t) :
    (∀ code, t.contextMap.getContext code = s.contextMap.getContext code) ↔ s.Late r.feed := by
  have htracker := h.tracker
  have hqueue := h.queue
  unfold ExecState.tracker at htracker
  cases hbefore : s.contextMap.getContext r.feed.feedcode with
  | none =>
      have hlate : ¬ s.Late r.feed := by
        simp [ExecState.Late, ExecState.contextFor, hbefore, openedContext, Context.initialise]
      refine iff_of_false ?_ hlate
      intro hsame
      rw [hsame, hbefore] at htracker
      cases htracker
  | some context =>
      have hiff : s.Late r.feed ↔ r.feed.exchangeTimestamp < context.expectTimestamp := by
        simp [ExecState.Late, ExecState.contextFor, hbefore]
      rw [hbefore] at htracker
      change _ = some (context.view.receive r.feed).1 at htracker
      constructor
      · intro hsame
        rw [hsame, hbefore] at htracker
        rw [hiff]
        by_contra hnot
        exact Tracker.receive_changes (not_lt.mp hnot) (Option.some.inj htracker).symm
      · intro hlate code
        by_cases hcode : code = r.feed.feedcode
        · rw [Tracker.receive_late (hiff.mp hlate)] at htracker
          obtain ⟨context', hafter, hview⟩ := Option.map_eq_some_iff.mp htracker
          rw [if_pos hlate] at hqueue
          have hlist := hqueue.2
          simp only [ExecState.queueOf, hafter, hbefore, Option.map_some, Option.getD_some] at hlist
          rw [hcode, hafter, hbefore, Context.eq_of_view hview hlist]
        · exact h.others code hcode

/-- The demand that the two `build` functions fail on what is not well formed is
met exactly by the well-formed details. The demand that a Statistics message
with such a detail leaves all contexts alone is met, in every interleaving,
exactly by the well-formed details and by those of which the part that was
read is late. How numerals are rounded to doubles does not matter. -/
theorem malformed_rejected_iff (round : Rat → Rat) (detail : String) :
    ((¬ StatisticsFeed.WellFormed detail → (StatisticsFeed.build round {} detail).1 ≠ 0) ↔
      StatisticsFeed.WellFormed detail) ∧
    ((¬ PriceFeed.WellFormed detail → (PriceFeed.build round {} detail).1 ≠ 0) ↔
      PriceFeed.WellFormed detail) ∧
    ∀ processors : List Processor,
      processors.filterMap Processor.deficiency? = [DeficiencyProcessor.fresh] →
      ∀ l, Reachable processors l → ∀ m message addr d pending, l.running = some m →
      l.pending = .deficiency d :: pending →
      l.heap.get? m = some (Incoming.toMessage
        ⟨message, .statistics (StatisticsFeed.ofRecord round detail)⟩ addr) →
      ∃ l', l.execNext = .ok l' ∧
        ((¬ StatisticsFeed.WellFormed detail →
            ∀ code, l'.contextMap.getContext code = l.contextMap.getContext code) ↔
          StatisticsFeed.WellFormed detail ∨ l.Late (StatisticsFeed.ofRecord round detail)) := by
  refine ⟨rejects_iff _ _ _ _, rejects_iff _ _ _ _, ?_⟩
  intro processors hone l hreach m message addr d pending hrun hpending hmsg
  have hinv := hreach.inv_of_turn hone hpending
  obtain ⟨t, _, _, hdone, hnext⟩ := hinv.execNext_statistics hrun hpending hmsg
    (toMessage_statistics_ref? message _ addr)
  refine ⟨_, hnext, ?_⟩
  have hkept := hdone.contexts_kept_iff.trans (late_iff l d (StatisticsFeed.ofRecord round detail))
  rw [← or_iff_not_imp_left]
  exact or_congr_right hkept

/-- A Statistics message whose detail is cut off behind its first member. -/
def truncatedRecord : Record :=
  ⟨⟨"feed", 0, 0⟩, some (.statistics (StatisticsFeed.ofRecord nearestDouble "rb1000")), .none⟩

/-- As the first message, it becomes a feed with timestamp zero, which opens a
context. -/
theorem malformed_rejected_truncated :
    ∃ l', ((EventLoop.start mainProcessors).consume truncatedRecord).execNext = .ok l' ∧
      ¬ ∀ code, l'.contextMap.getContext code = none := by
  obtain ⟨_, _, hexec⟩ := malformed_rejected_iff nearestDouble "rb1000"
  obtain ⟨l', hnext, hiff⟩ := hexec mainProcessors rfl _
    (Relation.ReflTransGen.single (.consume truncatedRecord rfl)) 0 ⟨"feed", 0, 0⟩ 1
    DeficiencyProcessor.fresh [.validity ValidityProcessor.fresh] rfl rfl rfl
  refine ⟨l', hnext, ?_⟩
  intro hnone
  rcases hiff.mp (fun _ => hnone) with hformed | ⟨context, hcontext, _⟩
  · revert hformed
    decide +kernel
  · cases hcontext

/-- Neither `build` rejects the truncated detail, and `exec` creates a context
that expects the tick after time zero. -/
theorem truncated_detail_accepted :
    ¬ StatisticsFeed.WellFormed "rb1000" ∧ (StatisticsFeed.build nearestDouble {} "rb1000").1 = 0 ∧
    ¬ PriceFeed.WellFormed "rb1000" ∧ (PriceFeed.build nearestDouble {} "rb1000").1 = 0 ∧
    ∃ l', ((EventLoop.start mainProcessors).consume truncatedRecord).execNext = .ok l' ∧
      (l'.contextMap.getContext "rb1000").map Context.expectTimestamp = some interval := by
  refine ⟨by decide +kernel, by decide +kernel, by decide +kernel, by decide +kernel, ?_⟩
  apply exists_ok_of_check
  decide +kernel

end OLog
