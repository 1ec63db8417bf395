import Mathlib.Data.List.Chain
import OLog.Reordering

/-!
Feeds that come in order, with ticks left out now and then but never two in a
row. The tracker waits at each of these ticks until 121 later feeds have come,
reports it and goes on, so that the reported ticks are exactly those with so
many feeds behind them.
-/

namespace OLog

open Lib

namespace Tracker

/-- In order, and of two ticks in a row at least one is there. -/
def Strides (feeds : List StatisticsFeed) : Prop :=
  feeds.IsChain (fun f g => g.exchangeTimestamp = f.exchangeTimestamp + interval ∨
    g.exchangeTimestamp = f.exchangeTimestamp + interval + interval)

/-- A tick that is not there although its neighbours are. -/
structure LeftOut (feeds : List StatisticsFeed) (t : Int) : Prop where
  before : ∃ f ∈ feeds, f.exchangeTimestamp + interval = t
  after : ∃ f ∈ feeds, f.exchangeTimestamp = t + interval
  absent : ∀ f ∈ feeds, f.exchangeTimestamp ≠ t

theorem Strides.concat {feeds : List StatisticsFeed} {last sf : StatisticsFeed}
    (h : Strides (feeds ++ [last] ++ [sf])) : Strides (feeds ++ [last]) ∧
      (sf.exchangeTimestamp = last.exchangeTimestamp + interval ∨
        sf.exchangeTimestamp = last.exchangeTimestamp + interval + interval) := by
  obtain ⟨hfront, _, hlast⟩ := List.isChain_append.mp h
  exact ⟨hfront, hlast last (by simp) sf (by simp)⟩

theorem laterThan_antitone {t u : Int} (h : t ≤ u) (feeds : List StatisticsFeed) :
    laterThan u feeds ≤ laterThan t feeds := by
  apply List.countP_mono_left
  intro f _ hf
  simp only [decide_eq_true_eq] at hf ⊢
  omega

theorem laterThan_lt {t u : Int} (h : t ≤ u) {feeds : List StatisticsFeed}
    {f : StatisticsFeed} (hf : f ∈ feeds) (ht : t < f.exchangeTimestamp)
    (hu : f.exchangeTimestamp ≤ u) : laterThan u feeds < laterThan t feeds := by
  obtain ⟨front, back, rfl⟩ := List.append_of_mem hf
  have hfront := laterThan_antitone h front
  have hback := laterThan_antitone h back
  have hno : ¬ u < f.exchangeTimestamp := by omega
  unfold laterThan at hfront hback ⊢
  simp only [List.countP_append, List.countP_cons, decide_eq_true_eq, ht, hno, if_true, if_false]
  omega

theorem laterThan_concat_ge (t : Int) (feeds : List StatisticsFeed) (sf : StatisticsFeed) :
    laterThan t feeds ≤ laterThan t (feeds ++ [sf]) := by
  unfold laterThan
  rw [List.countP_append]
  omega

theorem laterThan_eq_zero {t : Int} {feeds : List StatisticsFeed}
    (h : ∀ f ∈ feeds, f.exchangeTimestamp ≤ t) : laterThan t feeds = 0 := by
  apply List.countP_eq_zero.mpr
  intro f hf
  have := h f hf
  simp only [decide_eq_true_eq]
  omega

/-- What holds after feeds that came in order, the last one with index `m`. -/
structure InOrder (start : Int) (feeds : List StatisticsFeed) (m : Nat) : Prop where
  grid : ∀ f ∈ feeds, ∃ j ≤ m, f.exchangeTimestamp = tick start interval j
  last : ∃ f ∈ feeds, f.exchangeTimestamp = tick start interval m
  cover : ∀ j ≤ m, (∃ f ∈ feeds, f.exchangeTimestamp = tick start interval j) ∨
    LeftOut feeds (tick start interval j)

/-- The tracker's state: the expected tick separates the left-out ticks that
have 121 feeds behind them, which are the reported ones, from the others. -/
structure Keeps (feeds : List StatisticsFeed) (expect bound : Int) (misses : List Int) :
    Prop where
  bounded : expect ≤ bound
  counted : ∀ t, LeftOut feeds t → (t < expect ↔ queueLimit < laterThan t feeds)
  reported : ∀ t, t ∈ misses ↔ LeftOut feeds t ∧ t < expect
  sorted : misses.Pairwise (· < ·)

section Grid

variable {start : Int} {feeds : List StatisticsFeed} {m : Nat}

theorem tick_lt_iff {j k : Nat} : tick start interval j < tick start interval k ↔ j < k :=
  (tick_strictMono start interval_pos).lt_iff_lt

theorem tick_le_iff {j k : Nat} : tick start interval j ≤ tick start interval k ↔ j ≤ k :=
  (tick_strictMono start interval_pos).le_iff_le

theorem InOrder.le_last (h : InOrder start feeds m) {f : StatisticsFeed} (hf : f ∈ feeds) :
    f.exchangeTimestamp ≤ tick start interval m := by
  obtain ⟨j, hj, heq⟩ := h.grid f hf
  rw [heq]
  exact tick_le_iff.mpr hj

theorem InOrder.leftOut_grid (h : InOrder start feeds m) {t : Int} (ht : LeftOut feeds t) :
    ∃ j, 0 < j ∧ j < m ∧ t = tick start interval j := by
  obtain ⟨f, hf, hbefore⟩ := ht.before
  obtain ⟨g, hg, hafter⟩ := ht.after
  obtain ⟨j, _, hj⟩ := h.grid f hf
  obtain ⟨k, hk, hkt⟩ := h.grid g hg
  have heq : t = tick start interval (j + 1) := by rw [← hbefore, hj, tick_succ]
  refine ⟨j + 1, Nat.succ_pos j, ?_, heq⟩
  have hlt : tick start interval (j + 1) < tick start interval k := by
    have := interval_pos
    rw [← heq, ← hkt]
    omega
  have := tick_lt_iff.mp hlt
  omega

/-- One more feed in order leaves out at most the tick right before it. -/
theorem InOrder.leftOut_concat (h : InOrder start feeds m) {sf : StatisticsFeed} {m' : Nat}
    (hsf : sf.exchangeTimestamp = tick start interval m') (hm : m' = m + 1 ∨ m' = m + 2) (t : Int) :
    LeftOut (feeds ++ [sf]) t ↔
      LeftOut feeds t ∨ t = tick start interval (m + 1) ∧ m' = m + 2 := by
  have hpos := interval_pos
  have hsucc := tick_succ start interval m
  have hsucc' : tick start interval (m + 2) = tick start interval (m + 1) + interval :=
    tick_succ start interval (m + 1)
  have hmax : ∀ f ∈ feeds, f.exchangeTimestamp ≤ tick start interval m := fun f => h.le_last
  obtain ⟨last, hlast, hlastEq⟩ := h.last
  constructor
  · rintro ⟨⟨f, hf, hbefore⟩, ⟨g, hg, hafter⟩, habsent⟩
    obtain ⟨habsent', hne⟩ := List.forall_mem_append.mp habsent
    have hne' := hne sf List.mem_cons_self
    rcases List.mem_append.mp hg with hg | hg
    · have hold : f ∈ feeds := by
        rcases List.mem_append.mp hf with hf | hf
        · exact hf
        · rw [List.mem_singleton.mp hf] at hbefore
          have := hmax g hg
          rcases hm with rfl | rfl <;> omega
      exact Or.inl ⟨⟨f, hold, hbefore⟩, ⟨g, hg, hafter⟩, habsent'⟩
    · rw [List.mem_singleton.mp hg] at hafter
      have hold := habsent' last hlast
      rcases hm with rfl | rfl
      · omega
      · exact Or.inr ⟨by omega, rfl⟩
  · rintro (hold | ⟨rfl, rfl⟩)
    · obtain ⟨f, hf, hbefore⟩ := hold.before
      obtain ⟨g, hg, hafter⟩ := hold.after
      refine ⟨⟨f, List.mem_append_left _ hf, hbefore⟩, ⟨g, List.mem_append_left _ hg, hafter⟩, ?_⟩
      intro x hx
      rcases List.mem_append.mp hx with hx | hx
      · exact hold.absent x hx
      · rw [List.mem_singleton.mp hx]
        have := hmax g hg
        rcases hm with rfl | rfl <;> omega
    · refine ⟨⟨last, List.mem_append_left _ hlast, by rw [hlastEq, hsucc]⟩,
        ⟨sf, List.mem_append_right _ List.mem_cons_self, by rw [hsf, hsucc']⟩, ?_⟩
      intro x hx
      rcases List.mem_append.mp hx with hx | hx
      · have := hmax x hx
        omega
      · rw [List.mem_singleton.mp hx]
        omega

theorem InOrder.concat (h : InOrder start feeds m) {sf : StatisticsFeed} {m' : Nat}
    (hsf : sf.exchangeTimestamp = tick start interval m') (hm : m' = m + 1 ∨ m' = m + 2) :
    InOrder start (feeds ++ [sf]) m' := by
  have hself : ∃ f ∈ feeds ++ [sf], f.exchangeTimestamp = tick start interval m' :=
    ⟨sf, List.mem_append_right _ List.mem_cons_self, hsf⟩
  refine ⟨?_, hself, ?_⟩
  · intro f hf
    rcases List.mem_append.mp hf with hf | hf
    · obtain ⟨j, hj, heq⟩ := h.grid f hf
      exact ⟨j, by omega, heq⟩
    · rw [List.mem_singleton.mp hf]
      exact ⟨m', le_rfl, hsf⟩
  · intro j hj
    rw [h.leftOut_concat hsf hm]
    rcases Nat.lt_or_ge m j with hnew | hold
    · rcases hm with rfl | rfl
      · rw [show j = m + 1 by omega]
        exact Or.inl hself
      · rcases Nat.lt_or_ge (m + 1) j with hlast | hskipped
        · rw [show j = m + 2 by omega]
          exact Or.inl hself
        · rw [show j = m + 1 by omega]
          exact Or.inr (Or.inr ⟨rfl, rfl⟩)
    · rcases h.cover j hold with ⟨f, hf, heq⟩ | hleft
      · exact Or.inl ⟨f, List.mem_append_left _ hf, heq⟩
      · exact Or.inr (Or.inl hleft)

end Grid

section Receive

variable {start : Int} {feeds : List StatisticsFeed} {tracker : Tracker} {misses : List Int}
  {n m m' : Nat} {L : Ledger Int} {sf : StatisticsFeed}

theorem Account.expect_tick (h : Account start feeds tracker misses n L) :
    tracker.expectTimestamp = tick start interval n := by
  rw [← h.books.next, h.balanced.next_eq]

theorem Account.gap_tick (h : Account start feeds tracker misses n L) (sf : StatisticsFeed) :
    tracker.gap sf = tick start interval (n + tracker.run sf) := by
  rw [gap, h.expect_tick, tick_tick]

/-- Between the expected tick and the gap everything has arrived. -/
theorem Account.received_of_lt_gap (h : Account start feeds tracker misses n L) {k : Nat}
    (hlow : n ≤ k) (hhigh : k < n + tracker.run sf) :
    ∃ f ∈ feeds ++ [sf], f.exchangeTimestamp = tick start interval k := by
  have hrun : k - n < tracker.run sf := by omega
  obtain ⟨f, hf, heq⟩ := mem_timestamps.mp (mem_of_lt_run hrun)
  rw [h.expect_tick, tick_tick, Nat.add_sub_cancel' hlow] at heq
  refine ⟨f, ?_, heq⟩
  apply ((h.books.holds.join sf).mem_iff ?_).mp hf
  change tracker.expectTimestamp ≤ f.exchangeTimestamp
  rw [heq, h.expect_tick]
  exact tick_le_iff.mpr hlow

theorem kept_card (h : tracker.Holds feeds) (sf : StatisticsFeed) :
    (tracker.kept sf).card = laterThan (tracker.gap sf) (feeds ++ [sf]) := by
  rw [kept_eq h, ← Multiset.countP_eq_card_filter]
  exact Multiset.coe_countP _ _

/-- Where the gap is: a tick that was left out, or right behind the newest one. -/
theorem gap_leftOut (hacc : Account start feeds tracker misses n L)
    (hin : InOrder start (feeds ++ [sf]) m') (hn : n ≤ m' + 1) :
    LeftOut (feeds ++ [sf]) (tracker.gap sf) ∨ tracker.gap sf = tick start interval (m' + 1) := by
  have habsent := gap_not_received hacc.books.holds sf
  have hgap := hacc.gap_tick sf
  rw [hgap] at habsent ⊢
  rcases Nat.lt_or_ge m' (n + tracker.run sf) with hover | hunder
  · right
    rcases Nat.lt_or_ge (m' + 1) (n + tracker.run sf) with hbeyond | hle
    · -- nothing has arrived behind the newest feed
      obtain ⟨f, hf, heq⟩ := hacc.received_of_lt_gap hn hbeyond
      have hle := hin.le_last hf
      rw [heq, tick_le_iff] at hle
      omega
    · rw [show n + tracker.run sf = m' + 1 by omega]
  · left
    rcases hin.cover _ hunder with ⟨f, hf, heq⟩ | hleft
    · exact absurd heq (habsent f hf)
    · exact hleft

variable (hacc : Account start feeds tracker misses n L) (hin : InOrder start feeds m)
  (hkeeps : Keeps feeds tracker.expectTimestamp (tick start interval (m + 1)) misses)
  (hsf : sf.exchangeTimestamp = tick start interval m') (hm : m' = m + 1 ∨ m' = m + 2)

include hacc hin hkeeps hsf hm

/-- Of the left-out ticks, those before the gap are the reported ones. -/
theorem leftOut_before_gap {t : Int} (ht : LeftOut (feeds ++ [sf]) t) :
    t < tracker.gap sf ↔ LeftOut feeds t ∧ t < tracker.expectTimestamp := by
  have hin' := hin.concat hsf hm
  constructor
  · intro hlt
    obtain ⟨j, _, _, rfl⟩ := hin'.leftOut_grid ht
    rw [hacc.gap_tick, tick_lt_iff] at hlt
    have hbelow : j < n := by
      by_contra hge
      obtain ⟨f, hf, heq⟩ := hacc.received_of_lt_gap (Nat.le_of_not_lt hge) hlt
      exact ht.absent f hf heq
    have hexpect : tick start interval j < tracker.expectTimestamp := by
      rw [hacc.expect_tick]
      exact tick_lt_iff.mpr hbelow
    rcases (hin.leftOut_concat hsf hm _).mp ht with hold | ⟨heq, _⟩
    · exact ⟨hold, hexpect⟩
    · have := hkeeps.bounded
      omega
  · rintro ⟨_, hlt⟩
    exact lt_of_lt_of_le hlt (tracker.le_gap sf)

omit hacc in
theorem leftOut_gap_count (hgap : LeftOut (feeds ++ [sf]) (tracker.gap sf)) :
    laterThan (tracker.gap sf) (feeds ++ [sf]) ≤ queueLimit + 1 := by
  have hone := laterThan_concat_le (tracker.gap sf) feeds sf
  rcases (hin.leftOut_concat hsf hm _).mp hgap with hold | ⟨heq, _⟩
  · have hcount := hkeeps.counted _ hold
    have := tracker.le_gap sf
    omega
  · have hzero : laterThan (tracker.gap sf) feeds = 0 := by
      apply laterThan_eq_zero
      intro f hf
      rw [heq]
      exact (hin.le_last hf).trans (tick_le_iff.mpr (Nat.le_succ m))
    have : 0 < queueLimit := by decide
    omega

/-- Reported ticks stay behind enough feeds. -/
theorem leftOut_counted {t : Int} (ht : LeftOut (feeds ++ [sf]) t) (hlt : t < tracker.gap sf) :
    queueLimit < laterThan t (feeds ++ [sf]) := by
  obtain ⟨hold, hexpect⟩ := (leftOut_before_gap hacc hin hkeeps hsf hm ht).mp hlt
  have hcount := (hkeeps.counted t hold).mp hexpect
  exact lt_of_lt_of_le hcount (laterThan_concat_ge t feeds sf)

/-- Reported before means: left out before the gap. -/
theorem reported_before_gap (t : Int) :
    t ∈ misses ↔ LeftOut (feeds ++ [sf]) t ∧ t < tracker.gap sf := by
  rw [hkeeps.reported]
  constructor
  · rintro ⟨hold, hexpect⟩
    have hnew := (hin.leftOut_concat hsf hm t).mpr (Or.inl hold)
    exact ⟨hnew, (leftOut_before_gap hacc hin hkeeps hsf hm hnew).mpr ⟨hold, hexpect⟩⟩
  · rintro ⟨hnew, hlt⟩
    exact (leftOut_before_gap hacc hin hkeeps hsf hm hnew).mp hlt

/-- An early feed that leaves the queue short enough. -/
theorem Keeps.wait (hn : n ≤ m' + 1) (hsize : (tracker.kept sf).card ≤ queueLimit) :
    Keeps (feeds ++ [sf]) (tracker.gap sf) (tick start interval (m' + 1)) misses := by
  have hin' := hin.concat hsf hm
  rw [kept_card hacc.books.holds] at hsize
  refine ⟨?_, ?_, reported_before_gap hacc hin hkeeps hsf hm, hkeeps.sorted⟩
  · rcases gap_leftOut hacc hin' hn with hleft | heq
    · obtain ⟨j, _, hj, heq⟩ := hin'.leftOut_grid hleft
      rw [heq]
      exact tick_le_iff.mpr (by omega)
    · exact heq.le
  · intro t ht
    constructor
    · exact leftOut_counted hacc hin hkeeps hsf hm ht
    · intro hcount
      by_contra hge
      have := laterThan_antitone (not_lt.mp hge) (feeds ++ [sf])
      omega

/-- An early feed that fills the queue: the tick at the gap is given up. -/
theorem Keeps.miss (hn : n ≤ m' + 1) (hsize : queueLimit < (tracker.kept sf).card) :
    Keeps (feeds ++ [sf]) (tracker.gap sf + interval) (tick start interval (m' + 1))
      (misses ++ [tracker.gap sf]) := by
  have hpos := interval_pos
  have hin' := hin.concat hsf hm
  rw [kept_card hacc.books.holds] at hsize
  have hleft : LeftOut (feeds ++ [sf]) (tracker.gap sf) := by
    rcases gap_leftOut hacc hin' hn with hleft | heq
    · exact hleft
    · have hzero : laterThan (tracker.gap sf) (feeds ++ [sf]) = 0 := by
        apply laterThan_eq_zero
        intro f hf
        rw [heq]
        exact (hin'.le_last hf).trans (tick_le_iff.mpr (Nat.le_succ m'))
      omega
  obtain ⟨k, _, hk, hgap⟩ := hin'.leftOut_grid hleft
  -- no other left-out tick lies between the gap and the next tick
  have hnext : ∀ t, LeftOut (feeds ++ [sf]) t →
      (t < tracker.gap sf + interval ↔ t < tracker.gap sf ∨ t = tracker.gap sf) := by
    intro t ht
    obtain ⟨j, _, _, rfl⟩ := hin'.leftOut_grid ht
    rw [hgap, ← tick_succ, tick_lt_iff, tick_lt_iff,
      (tick_strictMono start interval_pos).injective.eq_iff]
    omega
  refine ⟨?_, ?_, ?_, ?_⟩
  · rw [hgap, ← tick_succ]
    exact tick_le_iff.mpr (by omega)
  · intro t ht
    rw [hnext t ht]
    constructor
    · rintro (hlt | rfl)
      · exact leftOut_counted hacc hin hkeeps hsf hm ht hlt
      · exact hsize
    · intro hcount
      by_contra hge
      have hlt : tracker.gap sf < t := by omega
      obtain ⟨f, hf, hafter⟩ := hleft.after
      have hbound := leftOut_gap_count hin hkeeps hsf hm hleft
      have hle : tracker.gap sf + interval ≤ t := by
        have := mt (hnext t ht).mp (by omega)
        omega
      have := laterThan_lt hlt.le hf (by omega) (by omega)
      omega
  · intro t
    rw [List.mem_append, List.mem_singleton, reported_before_gap hacc hin hkeeps hsf hm]
    constructor
    · rintro (⟨ht, hlt⟩ | rfl)
      · exact ⟨ht, by omega⟩
      · exact ⟨hleft, by omega⟩
    · rintro ⟨ht, hlt⟩
      rcases (hnext t ht).mp hlt with hbefore | heq
      · exact Or.inl ⟨ht, hbefore⟩
      · exact Or.inr heq
  · apply List.pairwise_append.mpr
    refine ⟨hkeeps.sorted, List.pairwise_singleton _ _, ?_⟩
    intro t ht u hu
    rw [List.mem_singleton.mp hu]
    exact ((reported_before_gap hacc hin hkeeps hsf hm t).mp ht).2

omit hacc in
/-- A feed that is on time is right behind the last one. -/
theorem Keeps.onTime (ht : tracker.expectTimestamp = sf.exchangeTimestamp) :
    Keeps (feeds ++ [sf]) (tracker.expectTimestamp + interval) (tick start interval (m' + 1))
      misses := by
  have hpos := interval_pos
  have hbound := hkeeps.bounded
  have hnext : m' = m + 1 := by
    rw [ht, hsf, tick_le_iff] at hbound
    omega
  have hsame : ∀ t, LeftOut (feeds ++ [sf]) t ↔ LeftOut feeds t := by
    intro t
    rw [hin.leftOut_concat hsf hm]
    constructor
    · rintro (hold | ⟨_, hother⟩)
      · exact hold
      · omega
    · exact Or.inl
  have hbelow : ∀ t, LeftOut feeds t → t < tracker.expectTimestamp := by
    intro t hleft
    obtain ⟨j, _, hj, rfl⟩ := hin.leftOut_grid hleft
    rw [ht, hsf]
    exact tick_lt_iff.mpr (by omega)
  refine ⟨?_, ?_, ?_, hkeeps.sorted⟩
  · rw [ht, hsf, tick_succ]
  · intro t hleft
    rw [hsame] at hleft
    have hlt := hbelow t hleft
    have hcount := (hkeeps.counted t hleft).mp hlt
    have := laterThan_concat_ge t feeds sf
    exact iff_of_true (by omega) (by omega)
  · intro t
    rw [hkeeps.reported, hsame]
    constructor
    · rintro ⟨hleft, hlt⟩
      exact ⟨hleft, by omega⟩
    · rintro ⟨hleft, _⟩
      exact ⟨hleft, hbelow t hleft⟩

/-- One more feed in order: never late, and the tracker goes on as described. -/
theorem receive_inOrder (hn : n ≤ m + 1) :
    Keeps (feeds ++ [sf]) (tracker.receive sf).1.expectTimestamp (tick start interval (m' + 1))
        (misses ++ missTicks (tracker.receive sf).2) ∧
      ∀ alert ∈ (tracker.receive sf).2, alert.isDelay = false := by
  have hnotLate : ¬ sf.exchangeTimestamp < tracker.expectTimestamp := by
    rw [hsf, hacc.expect_tick, tick_lt_iff]
    omega
  constructor
  · rcases lt_trichotomy tracker.expectTimestamp sf.exchangeTimestamp with ht | ht | ht
    · by_cases hsize : queueLimit < (tracker.kept sf).card
      · rw [receive_early_miss ht hsize, missTicks_append, missTicks_continuity]
        exact Keeps.miss hacc hin hkeeps hsf hm (by omega) hsize
      · rw [receive_early_wait ht (by omega), missTicks_continuity, List.append_nil]
        exact Keeps.wait hacc hin hkeeps hsf hm (by omega) (by omega)
    · rw [receive_onTime ht]
      simp only [missTicks, List.filterMap_nil, List.append_nil]
      exact Keeps.onTime hin hkeeps hsf hm ht
    · exact absurd ht hnotLate
  · intro alert halert
    rcases receive_alert halert with hmono | ⟨_, hlate⟩ | rfl
    · cases alert <;> first | rfl | cases hmono
    · exact absurd hlate hnotLate
    · rfl

end Receive

/-- A whole sequence in order. -/
theorem track_inOrder (first : StatisticsFeed) {rest : List StatisticsFeed}
    (h : Strides (first :: rest)) :
    ∃ tracker m, (track (first :: rest)).1 = some tracker ∧
      (∀ f ∈ (first :: rest).getLast?,
        f.exchangeTimestamp = tick first.exchangeTimestamp interval m) ∧
      InOrder first.exchangeTimestamp (first :: rest) m ∧
      Keeps (first :: rest) tracker.expectTimestamp
        (tick first.exchangeTimestamp interval (m + 1)) (missTicks (track (first :: rest)).2) ∧
      ∀ alert ∈ (track (first :: rest)).2, alert.isDelay = false := by
  induction rest using List.reverseRecOn with
  | nil =>
      have hself : ∀ f ∈ [first], f.exchangeTimestamp =
          tick first.exchangeTimestamp interval 0 := by simp
      have hin : InOrder first.exchangeTimestamp [first] 0 := by
        refine ⟨fun f hf => ⟨0, le_rfl, hself f hf⟩, ⟨first, by simp⟩, ?_⟩
        intro j hj
        rw [Nat.le_zero.mp hj]
        exact Or.inl ⟨first, by simp⟩
      have hnone : ∀ t, ¬ LeftOut [first] t := by
        intro t ht
        obtain ⟨_, _, hj, _⟩ := hin.leftOut_grid ht
        omega
      rw [track_first]
      refine ⟨_, 0, rfl, fun f hf => hself f (List.mem_of_mem_getLast? hf), hin, ?_,
        isDelay_invalidAlerts first⟩
      rw [missTicks_invalid]
      refine ⟨?_, fun t ht => absurd ht (hnone t), ?_, List.Pairwise.nil⟩
      · rw [tick_succ, tick_zero]
      · intro t
        exact iff_of_false List.not_mem_nil (fun ht => hnone t ht.1)
  | append_singleton rest sf ih =>
      obtain ⟨front, last, hlast⟩ := List.eq_nil_or_concat (first :: rest) |>.resolve_left (by simp)
      rw [List.concat_eq_append] at hlast
      have hstride : Strides (front ++ [last] ++ [sf]) := by
        rw [← hlast]
        exact h
      obtain ⟨hold, hnext⟩ := hstride.concat
      rw [← hlast] at hold
      obtain ⟨tracker, m, htrack, hm, hin, hkeeps, hdelay⟩ := ih hold
      obtain ⟨tracker', n, L, htrack', _, hacc⟩ := track_account first rest
      cases htrack.symm.trans htrack'
      have hlastTick := hm last (by rw [hlast]; simp)
      have hn : n ≤ m + 1 := by
        have hbound := hkeeps.bounded
        rw [hacc.expect_tick, tick_le_iff] at hbound
        exact hbound
      obtain ⟨m', hm', hsf⟩ : ∃ m', (m' = m + 1 ∨ m' = m + 2) ∧
          sf.exchangeTimestamp = tick first.exchangeTimestamp interval m' := by
        rcases hnext with hone | htwo
        · exact ⟨m + 1, Or.inl rfl, by rw [hone, hlastTick, tick_succ]⟩
        · exact ⟨m + 2, Or.inr rfl, by rw [htwo, hlastTick, tick_succ, tick_succ]⟩
      obtain ⟨hkeeps', hdelay'⟩ := receive_inOrder hacc hin hkeeps hsf hm' hn
      rw [track_cons_concat first rest sf htrack, missTicks_append, missTicks_append,
        missTicks_invalid, List.nil_append]
      refine ⟨_, m', rfl, ?_, hin.concat hsf hm', hkeeps', ?_⟩
      · rw [← List.cons_append, List.getLast?_concat]
        rintro f hf
        cases hf
        exact hsf
      · intro alert halert
        rcases List.mem_append.mp halert with halert | halert
        · exact hdelay alert halert
        · rcases List.mem_append.mp halert with halert | halert
          · exact isDelay_invalidAlerts sf alert halert
          · exact hdelay' alert halert

/-- The reported ticks, in order. -/
theorem missTicks_inOrder {first : StatisticsFeed} {rest : List StatisticsFeed}
    (h : Strides (first :: rest)) {ticks : List Int} (hsorted : ticks.Pairwise (· < ·))
    (hticks : ∀ t, t ∈ ticks ↔
      LeftOut (first :: rest) t ∧ queueLimit < laterThan t (first :: rest)) :
    missTicks (track (first :: rest)).2 = ticks := by
  obtain ⟨_, _, _, _, _, hkeeps, _⟩ := track_inOrder first h
  have hsame : ∀ t, t ∈ missTicks (track (first :: rest)).2 ↔ t ∈ ticks := by
    intro t
    rw [hticks, hkeeps.reported]
    constructor
    · exact fun ⟨hleft, hlt⟩ => ⟨hleft, (hkeeps.counted t hleft).mp hlt⟩
    · exact fun ⟨hleft, hcount⟩ => ⟨hleft, (hkeeps.counted t hleft).mpr hcount⟩
  have hperm : (missTicks (track (first :: rest)).2).Perm ticks := by
    apply (List.perm_ext_iff_of_nodup _ _).mpr hsame
    · exact hkeeps.sorted.imp (fun hlt => ne_of_lt hlt)
    · exact hsorted.imp (fun hlt => ne_of_lt hlt)
  exact hperm.eq_of_pairwise (fun a b _ _ hab hba => absurd hab (not_lt.mpr hba.le))
    hkeeps.sorted hsorted

/-- Without any gap the tracker expects each feed as it comes. -/
theorem track_consecutive (first : StatisticsFeed) {rest : List StatisticsFeed}
    (h : (first :: rest).IsChain (fun f g =>
      g.exchangeTimestamp = f.exchangeTimestamp + interval)) :
    ∃ tracker, (track (first :: rest)).1 = some tracker ∧ tracker.waiting = 0 ∧
      (∀ last ∈ (first :: rest).getLast?,
        tracker.expectTimestamp = last.exchangeTimestamp + interval) ∧
      (track (first :: rest)).2 = (first :: rest).flatMap invalidAlerts := by
  induction rest using List.reverseRecOn with
  | nil =>
      rw [track_first]
      refine ⟨_, rfl, rfl, ?_, (List.append_nil _).symm⟩
      rintro last hlast
      cases hlast
      rfl
  | append_singleton rest sf ih =>
      rw [← List.cons_append] at h
      obtain ⟨hfront, _, hnext⟩ := List.isChain_append.mp h
      obtain ⟨tracker, htrack, hwaiting, hexpect, halerts⟩ := ih hfront
      obtain ⟨last, hlast⟩ : ∃ last, (first :: rest).getLast? = some last :=
        Option.isSome_iff_exists.mp (by simp)
      have honTime : tracker.expectTimestamp = sf.exchangeTimestamp :=
        (hexpect last hlast).trans (hnext last hlast sf rfl).symm
      rw [track_cons_concat first rest sf htrack, receive_onTime honTime, halerts]
      refine ⟨_, rfl, hwaiting, ?_, ?_⟩
      · rw [← List.cons_append, List.getLast?_concat]
        rintro other hother
        cases hother
        rw [← honTime]
      · rw [List.append_nil, ← List.cons_append, List.flatMap_append, List.flatMap_singleton]

end Tracker

end OLog
