import OLog.Tracker
import OLog.Lib.Ledger

/-!
A tracker keeps the books of a ledger. The key fact is that a feed whose tick
has not been passed is still waiting; with it, the tick at the gap has not
been received, so giving it up is a ledger's skip, and every other advance of
the expected tick is a pass.
-/

namespace OLog

open Lib

namespace Tracker

/-- Nothing received from the expected tick on has left, and only that waits
there. -/
def Holds (feeds : List StatisticsFeed) (tracker : Tracker) : Prop :=
  tracker.waiting.filter (fun f => tracker.expectTimestamp ≤ f.exchangeTimestamp) =
    (feeds : Multiset StatisticsFeed).filter
      (fun f => tracker.expectTimestamp ≤ f.exchangeTimestamp)

theorem Holds.mem_iff {feeds : List StatisticsFeed} {tracker : Tracker}
    (h : tracker.Holds feeds) {f : StatisticsFeed}
    (hf : tracker.expectTimestamp ≤ f.exchangeTimestamp) :
    f ∈ tracker.waiting ↔ f ∈ feeds := by
  have hmem : f ∈ tracker.waiting.filter
        (fun f => tracker.expectTimestamp ≤ f.exchangeTimestamp) ↔
      f ∈ (feeds : Multiset StatisticsFeed).filter
        (fun f => tracker.expectTimestamp ≤ f.exchangeTimestamp) := by
    rw [h]
  simpa [hf] using hmem

/-- The same from any later tick on. -/
theorem Holds.filter_eq {feeds : List StatisticsFeed} {tracker : Tracker}
    (h : tracker.Holds feeds) {p : StatisticsFeed → Prop} [DecidablePred p]
    (hp : ∀ f, p f → tracker.expectTimestamp ≤ f.exchangeTimestamp) :
    tracker.waiting.filter p = (feeds : Multiset StatisticsFeed).filter p := by
  have hboth : ∀ w : Multiset StatisticsFeed, w.filter p =
      (w.filter (fun f => tracker.expectTimestamp ≤ f.exchangeTimestamp)).filter p := by
    intro w
    rw [Multiset.filter_filter]
    apply Multiset.filter_congr
    intro f _
    exact ⟨fun hf => ⟨hf, hp f hf⟩, fun hf => hf.1⟩
  rw [hboth, hboth (feeds : Multiset StatisticsFeed), h]

theorem opened_holds (sf : StatisticsFeed) : (opened sf).Holds [] := by
  simp [Holds, opened]

/-- The arriving feed joins the waiting ones. -/
theorem Holds.join {feeds : List StatisticsFeed} {tracker : Tracker}
    (h : tracker.Holds feeds) (sf : StatisticsFeed) :
    Holds (feeds ++ [sf]) {tracker with waiting := sf ::ₘ tracker.waiting} := by
  unfold Holds
  have hcoe : ((feeds ++ [sf] : List StatisticsFeed) : Multiset StatisticsFeed) =
      sf ::ₘ (feeds : Multiset StatisticsFeed) := by
    rw [Multiset.cons_coe]
    exact Quot.sound (List.perm_append_singleton sf feeds)
  simp only [hcoe, Multiset.filter_cons]
  rw [show Multiset.filter (fun f => tracker.expectTimestamp ≤ f.exchangeTimestamp)
    tracker.waiting = _ from h]

theorem gap_not_received {feeds : List StatisticsFeed} {tracker : Tracker}
    (h : tracker.Holds feeds) (sf : StatisticsFeed) :
    ∀ f ∈ feeds ++ [sf], f.exchangeTimestamp ≠ tracker.gap sf := by
  intro f hf heq
  have hle : tracker.expectTimestamp ≤ f.exchangeTimestamp := by
    rw [heq]
    exact tracker.le_gap sf
  have hwaiting : f ∈ sf ::ₘ tracker.waiting := ((h.join sf).mem_iff hle).mpr hf
  exact tracker.gap_notMem sf (mem_timestamps.mpr ⟨f, hwaiting, heq⟩)

/-- What is kept behind the gap is all that was received there. -/
theorem kept_eq {feeds : List StatisticsFeed} {tracker : Tracker} (h : tracker.Holds feeds)
    (sf : StatisticsFeed) :
    tracker.kept sf = ((feeds ++ [sf] : List StatisticsFeed) : Multiset StatisticsFeed).filter
      (fun f => tracker.gap sf < f.exchangeTimestamp) := by
  apply (h.join sf).filter_eq
  intro f hf
  have := tracker.le_gap sf
  change tracker.expectTimestamp ≤ f.exchangeTimestamp
  omega

/-- The drained tracker, whether or not the tick at the gap is given up. -/
theorem holds_after_gap {feeds : List StatisticsFeed} {tracker : Tracker}
    (h : tracker.Holds feeds) (sf : StatisticsFeed) {next : Tracker}
    (hwaiting : next.waiting = tracker.kept sf)
    (hexpect : tracker.gap sf ≤ next.expectTimestamp) : next.Holds (feeds ++ [sf]) := by
  unfold Holds
  rw [hwaiting, kept_eq h, Multiset.filter_filter]
  apply Multiset.filter_congr
  intro f hf
  have hne := gap_not_received h sf f (by simpa using hf)
  constructor
  · exact fun hle => hle.1
  · intro hle
    refine ⟨hle, ?_⟩
    omega

@[simp] theorem drained_waiting (tracker : Tracker) (sf : StatisticsFeed) :
    (tracker.drained sf).waiting = tracker.kept sf := rfl

theorem receive_holds {feeds : List StatisticsFeed} {tracker : Tracker}
    (h : tracker.Holds feeds) (sf : StatisticsFeed) :
    (tracker.receive sf).1.Holds (feeds ++ [sf]) := by
  have hskip : ∀ next : Tracker, next.waiting = tracker.waiting →
      tracker.expectTimestamp ≤ next.expectTimestamp →
      sf.exchangeTimestamp < next.expectTimestamp → next.Holds (feeds ++ [sf]) := by
    intro next hwaiting hle hlt
    have hpred : ∀ f : StatisticsFeed, next.expectTimestamp ≤ f.exchangeTimestamp →
        tracker.expectTimestamp ≤ f.exchangeTimestamp := by
      intro f hf
      omega
    have hrest := h.filter_eq hpred
    have hsf : ¬ next.expectTimestamp ≤ sf.exchangeTimestamp := by omega
    unfold Holds
    rw [hwaiting, hrest, ← Multiset.coe_add, Multiset.filter_add, Multiset.coe_singleton,
      Multiset.filter_singleton, if_neg hsf]
    simp
  rcases lt_trichotomy tracker.expectTimestamp sf.exchangeTimestamp with ht | ht | ht
  · by_cases hsize : queueLimit < (tracker.kept sf).card
    · rw [receive_early_miss ht hsize]
      apply holds_after_gap h sf rfl
      have := interval_pos
      simp only
      omega
    · rw [receive_early_wait ht (by omega)]
      exact holds_after_gap h sf rfl le_rfl
  · rw [receive_onTime ht]
    have := interval_pos
    apply hskip
    · rfl
    · simp only
      omega
    · simp only
      omega
  · rw [receive_late ht]
    exact hskip tracker rfl le_rfl ht

/-- A tracker's state after `feeds` as a ledger. -/
structure Books (feeds : List StatisticsFeed) (tracker : Tracker) (misses : List Int)
    (L : Ledger Int) : Prop where
  next : L.next = tracker.expectTimestamp
  received : L.received = {t | ∃ f ∈ feeds, f.exchangeTimestamp = t}
  missed : L.missed = misses
  holds : tracker.Holds feeds

/-- The ticks of the 'miss' alerts in a list. -/
def missTicks (alerts : List Alert) : List Int := alerts.filterMap Alert.missTick?

theorem missTicks_append (first second : List Alert) :
    missTicks (first ++ second) = missTicks first ++ missTicks second :=
  List.filterMap_append

theorem missTicks_invalid (sf : StatisticsFeed) : missTicks (invalidAlerts sf) = [] := by
  unfold invalidAlerts
  split_ifs <;> rfl

theorem missTicks_continuity (tracker : Tracker) (sf : StatisticsFeed) (n : Nat) :
    missTicks (tracker.continuityAlerts sf n) = [] := by
  unfold continuityAlerts
  split_ifs
  · simp [missTicks, monotonicityAlert, Alert.missTick?]
  · rfl

theorem received_concat (feeds : List StatisticsFeed) (sf : StatisticsFeed) :
    {t | ∃ f ∈ feeds ++ [sf], f.exchangeTimestamp = t} =
      insert sf.exchangeTimestamp {t | ∃ f ∈ feeds, f.exchangeTimestamp = t} := by
  ext t
  simp only [Set.mem_ofPred_eq, Set.mem_insert_iff, List.mem_append, List.mem_singleton]
  constructor
  · rintro ⟨f, hf | rfl, rfl⟩
    · exact Or.inr ⟨f, hf, rfl⟩
    · exact Or.inl rfl
  · rintro (rfl | ⟨f, hf, rfl⟩)
    · exact ⟨sf, Or.inr rfl, rfl⟩
    · exact ⟨f, Or.inl hf, rfl⟩

/-- Receiving a feed is one turn of the ledger. -/
theorem receive_turn {feeds : List StatisticsFeed} {tracker : Tracker} {misses : List Int}
    {L : Ledger Int} (h : Books feeds tracker misses L) (sf : StatisticsFeed) :
    ∃ L', Ledger.Turn interval L sf.exchangeTimestamp L' ∧
      Books (feeds ++ [sf]) (tracker.receive sf).1
        (misses ++ missTicks (tracker.receive sf).2) L' := by
  have hholds := receive_holds h.holds sf
  have hreceived : (L.arrive sf.exchangeTimestamp).received =
      {t | ∃ f ∈ feeds ++ [sf], f.exchangeTimestamp = t} := by
    rw [received_concat, ← h.received]
    rfl
  rcases lt_trichotomy tracker.expectTimestamp sf.exchangeTimestamp with ht | ht | ht
  · -- early: pass up to the gap, then possibly skip the tick at the gap
    let passedL : Ledger Int :=
      {L.arrive sf.exchangeTimestamp with
        next := tick L.next interval (tracker.run sf)
        passed := L.passed ++ (List.range (tracker.run sf)).map (tick L.next interval)}
    have hpass : Ledger.Turn interval L sf.exchangeTimestamp passedL := by
      apply Ledger.pass_moves
      intro j hj
      rw [hreceived]
      obtain ⟨f, hf, heq⟩ := mem_timestamps.mp (mem_of_lt_run hj)
      refine ⟨f, ?_, ?_⟩
      · have hle : tracker.expectTimestamp ≤ f.exchangeTimestamp := by
          rw [heq]
          exact le_tick _ interval_pos j
        exact ((h.holds.join sf).mem_iff hle).mp hf
      · rw [heq, ← h.next]
        rfl
    have hgap : passedL.next = tracker.gap sf := by
      simp only [passedL, h.next]
      rfl
    by_cases hsize : queueLimit < (tracker.kept sf).card
    · have hnext : passedL.next ∉ passedL.received := by
        intro hmem
        have hmem' : passedL.next ∈ {t | ∃ f ∈ feeds ++ [sf], f.exchangeTimestamp = t} := by
          rw [← hreceived]
          exact hmem
        obtain ⟨f, hf, heq⟩ := hmem'
        exact gap_not_received h.holds sf f hf (heq.trans hgap)
      rw [receive_early_miss ht hsize] at hholds ⊢
      refine ⟨passedL.skip interval, hpass.tail (Ledger.Move.skip _ hnext), ?_, hreceived, ?_,
        hholds⟩
      · simp [Ledger.skip, hgap]
      · rw [missTicks_append, missTicks_continuity]
        change L.missed ++ [passedL.next] = misses ++ [tracker.gap sf]
        rw [hgap, h.missed]
    · rw [receive_early_wait ht (by omega)] at hholds ⊢
      refine ⟨passedL, hpass, hgap, hreceived, ?_, hholds⟩
      simp [missTicks_continuity, passedL, Ledger.arrive, h.missed]
  · -- on time: pass the expected tick
    have hnext : (L.arrive sf.exchangeTimestamp).next ∈
        (L.arrive sf.exchangeTimestamp).received := by
      rw [hreceived]
      exact ⟨sf, by simp, by rw [← ht, ← h.next]; rfl⟩
    rw [receive_onTime ht] at hholds ⊢
    refine ⟨(L.arrive sf.exchangeTimestamp).pass interval,
      Relation.ReflTransGen.single (Ledger.Move.pass _ hnext), ?_, hreceived, ?_, hholds⟩
    · simp [Ledger.pass, Ledger.arrive, h.next]
    · simp [Ledger.pass, Ledger.arrive, h.missed, missTicks]
  · -- late: nothing moves
    rw [receive_late ht] at hholds ⊢
    refine ⟨L.arrive sf.exchangeTimestamp, Relation.ReflTransGen.refl, h.next, hreceived, ?_,
      hholds⟩
    simp [Ledger.arrive, h.missed, missTicks, delayAlert, Alert.missTick?]

/-- The expected tick after a sequence of feeds. -/
def expectAfter (feeds : List StatisticsFeed) : Option Int :=
  (track feeds).1.map Tracker.expectTimestamp

/-- There is a tracker from the first feed on. -/
theorem track_eq_none {feeds : List StatisticsFeed} (h : (track feeds).1 = none) :
    feeds = [] := by
  rcases List.eq_nil_or_concat feeds with hnil | ⟨front, last, hcons⟩
  · exact hnil
  · rw [hcons, List.concat_eq_append, track_concat] at h
    cases h

theorem receive_expect_le (tracker : Tracker) (sf : StatisticsFeed) :
    tracker.expectTimestamp ≤ (tracker.receive sf).1.expectTimestamp := by
  have hinterval := interval_pos
  have hgap := tracker.le_gap sf
  rcases lt_trichotomy tracker.expectTimestamp sf.exchangeTimestamp with ht | ht | ht
  · by_cases hsize : queueLimit < (tracker.kept sf).card
    · rw [receive_early_miss ht hsize]
      change tracker.expectTimestamp ≤ tracker.gap sf + interval
      omega
    · rw [receive_early_wait ht (by omega)]
      exact hgap
  · rw [receive_onTime ht]
    change tracker.expectTimestamp ≤ tracker.expectTimestamp + interval
    omega
  · rw [receive_late ht]

theorem expectAfter_concat (feeds : List StatisticsFeed) (sf : StatisticsFeed) :
    expectAfter (feeds ++ [sf]) =
      some (((track feeds).1.getD (opened sf)).receive sf).1.expectTimestamp := by
  unfold expectAfter
  rw [track_concat]
  rfl

/-- The expected tick never decreases. -/
theorem expectAfter_mono {shorter feeds : List StatisticsFeed} (hpre : shorter <+: feeds)
    {e e' : Int} (he : e ∈ expectAfter shorter) (he' : e' ∈ expectAfter feeds) : e ≤ e' := by
  induction feeds using List.reverseRecOn generalizing e' with
  | nil =>
      have hnil : shorter = [] := List.prefix_nil.mp hpre
      subst hnil
      exact (Option.mem_unique he he').le
  | append_singleton feeds sf ih =>
      rcases List.prefix_concat_iff.mp hpre with heq | hshort
      · subst heq
        exact (Option.mem_unique he he').le
      · rw [expectAfter_concat] at he'
        cases htrack : (track feeds).1 with
        | none =>
            rw [track_eq_none htrack] at hshort
            rw [List.prefix_nil.mp hshort] at he
            cases he
        | some tracker =>
            have hbefore : tracker.expectTimestamp ∈ expectAfter feeds := by
              simp [expectAfter, htrack]
            rw [htrack] at he'
            cases he'
            exact (ih hshort hbefore).trans (tracker.receive_expect_le sf)

/-- The books of a whole sequence: they balance at some tick after the first,
what was passed was in time, and what was missed was not. -/
structure Account (start : Int) (feeds : List StatisticsFeed) (tracker : Tracker)
    (misses : List Int) (n : Nat) (L : Ledger Int) : Prop where
  books : Books feeds tracker misses L
  balanced : L.Balanced start interval n
  passed : ∀ t ∈ L.passed, InTime expectAfter StatisticsFeed.exchangeTimestamp feeds t
  missed : ∀ t ∈ L.missed, ¬ InTime expectAfter StatisticsFeed.exchangeTimestamp feeds t

theorem opened_account (sf : StatisticsFeed) :
    Account sf.exchangeTimestamp [] (opened sf) [] 0 (Ledger.opened sf.exchangeTimestamp) := by
  refine ⟨⟨rfl, ?_, rfl, opened_holds sf⟩, Ledger.opened_balanced _ _, ?_, ?_⟩
  · simp [Ledger.opened]
  · simp [Ledger.opened]
  · simp [Ledger.opened]

theorem Account.concat {start : Int} {feeds : List StatisticsFeed} {tracker : Tracker}
    {misses : List Int} {n : Nat} {L : Ledger Int} (h : Account start feeds tracker misses n L)
    (sf : StatisticsFeed) (htrack : (track feeds).1.getD (opened sf) = tracker)
    (hbefore : ∀ e ∈ expectAfter feeds, e = tracker.expectTimestamp)
    (hsome : 0 < n → tracker.expectTimestamp ∈ expectAfter feeds) :
    ∃ n' L', n ≤ n' ∧ Account start (feeds ++ [sf]) (tracker.receive sf).1
      (misses ++ missTicks (tracker.receive sf).2) n' L' := by
  obtain ⟨L', hturn, hbooks⟩ := receive_turn h.books sf
  obtain ⟨n', hle, hbal⟩ := h.balanced.turn hturn
  obtain ⟨hrec, ps, ms, hps, hms, hin, hout⟩ := hturn.books interval_pos
  have hafter : (tracker.receive sf).1.expectTimestamp ∈ expectAfter (feeds ++ [sf]) := by
    rw [expectAfter_concat, htrack]
    rfl
  have hreceived : ∀ t, t ∈ L'.received ↔
      t ∈ (feeds ++ [sf]).map StatisticsFeed.exchangeTimestamp := by
    intro t
    rw [hbooks.received]
    simp only [Set.mem_ofPred_eq, List.mem_map]
  -- a tick booked before was settled before; one booked now is settled now
  have hold : ∀ t ∈ L.passed ++ L.missed,
      (InTime expectAfter StatisticsFeed.exchangeTimestamp (feeds ++ [sf]) t ↔
        InTime expectAfter StatisticsFeed.exchangeTimestamp feeds t) := by
    intro t ht
    obtain ⟨j, rfl, hlt⟩ := h.balanced.booked_below interval_pos ht
    have hn : 0 < n := by
      rw [h.balanced.next_eq] at hlt
      have := (tick_strictMono start interval_pos).lt_iff_lt.mp hlt
      omega
    exact inTime_concat_of_lt ⟨_, hsome hn, h.books.next ▸ hlt⟩
  have hnew : ∀ t ∈ ps ++ ms, L.next ≤ t →
      (InTime expectAfter StatisticsFeed.exchangeTimestamp (feeds ++ [sf]) t ↔
        t ∈ (feeds ++ [sf]).map StatisticsFeed.exchangeTimestamp) := by
    intro t ht hnext
    apply inTime_concat_of_le
    · intro shorter hpre e he
      cases hlast : expectAfter feeds with
      | none =>
          have hnone : (track feeds).1 = none := by simpa [expectAfter] using hlast
          rw [track_eq_none hnone] at hpre
          rw [List.prefix_nil.mp hpre] at he
          cases he
      | some e' =>
          have hle' := expectAfter_mono hpre he hlast
          have := hbefore e' hlast
          have := h.books.next
          omega
    · have hbooked : t ∈ L'.passed ++ L'.missed := by
        rw [hps, hms]
        simp only [List.mem_append] at ht ⊢
        tauto
      obtain ⟨_, _, hlt⟩ := hbal.booked_below interval_pos hbooked
      exact ⟨_, hafter, hbooks.next ▸ hlt⟩
  refine ⟨n', L', hle, hbooks, hbal, ?_, ?_⟩
  · intro t ht
    rw [hps] at ht
    rcases List.mem_append.mp ht with ht | ht
    · exact (hold t (List.mem_append_left _ ht)).mpr (h.passed t ht)
    · obtain ⟨hmem, hnext⟩ := hin t ht
      exact (hnew t (List.mem_append_left _ ht) hnext).mpr ((hreceived t).mp hmem)
  · intro t ht
    rw [hms] at ht
    rcases List.mem_append.mp ht with ht | ht
    · exact fun hintime => h.missed t ht ((hold t (List.mem_append_right _ ht)).mp hintime)
    · obtain ⟨hmem, hnext⟩ := hout t ht
      exact fun hintime => hmem ((hreceived t).mpr
        ((hnew t (List.mem_append_right _ ht) hnext).mp hintime))

/-- The first feed is on time for the tracker that it opens. -/
theorem inTime_first (first : StatisticsFeed) (rest : List StatisticsFeed) :
    InTime expectAfter StatisticsFeed.exchangeTimestamp (first :: rest)
      first.exchangeTimestamp := by
  refine ⟨0, ⟨by simp, ?_, first.exchangeTimestamp + interval, ?_, ?_⟩, by simp⟩
  · intro e he
    cases he
  · have hone := expectAfter_concat [] first
    rw [track_nil, Option.getD_none, receive_onTime rfl] at hone
    exact hone
  · have := interval_pos
    omega

/-- Every non-empty sequence has an account, one tick past the first at least. -/
theorem track_account (first : StatisticsFeed) (rest : List StatisticsFeed) :
    ∃ tracker n L, (track (first :: rest)).1 = some tracker ∧ 1 ≤ n ∧
      Account first.exchangeTimestamp (first :: rest) tracker
        (missTicks (track (first :: rest)).2) n L := by
  induction rest using List.reverseRecOn with
  | nil =>
      obtain ⟨n, L, _, hacc⟩ := (opened_account first).concat first rfl
        (fun e he => by cases he) (fun h => by omega)
      have honTime : (opened first).expectTimestamp = first.exchangeTimestamp := rfl
      refine ⟨((opened first).receive first).1, n, L, rfl, ?_, ?_⟩
      · -- the first feed is on time for the tracker that it opens
        have hnext := hacc.balanced.next_eq
        rw [hacc.books.next, receive_onTime honTime] at hnext
        change first.exchangeTimestamp + interval = _ at hnext
        by_contra hn
        have hzero : n = 0 := by omega
        rw [hzero, tick_zero] at hnext
        have := interval_pos
        omega
      · have halerts : missTicks (track [first]).2 =
            missTicks (invalidAlerts first) ++ missTicks ((opened first).receive first).2 := by
          rw [← missTicks_append]
          rfl
        rw [halerts, missTicks_invalid]
        exact hacc
  | append_singleton rest sf ih =>
      obtain ⟨tracker, n, L, htrack, hn, hacc⟩ := ih
      have hexpect : expectAfter (first :: rest) = some tracker.expectTimestamp := by
        simp [expectAfter, htrack]
      have hget : (track (first :: rest)).1.getD (opened sf) = tracker := by
        rw [htrack]
        rfl
      obtain ⟨n', L', hle, hacc'⟩ := hacc.concat sf hget
        (fun e he => by rw [hexpect] at he; cases he; rfl) (fun _ => hexpect)
      have hconcat := track_concat (first :: rest) sf
      rw [htrack] at hconcat
      refine ⟨(tracker.receive sf).1, n', L', ?_, by omega, ?_⟩
      · rw [← List.cons_append, hconcat]
        rfl
      · rw [← List.cons_append, hconcat]
        change Account _ _ _ (missTicks (_ ++ (invalidAlerts sf ++ _))) _ _
        rw [missTicks_append, missTicks_append, missTicks_invalid]
        exact hacc'

end Tracker

end OLog
