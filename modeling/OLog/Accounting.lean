import OLog.Isolation
import OLog.Ticks

/-!
The ticks of one feedcode. Every tick that the expected one has moved past is
accounted for exactly once, as received in time or as missed; and a tick that
does not arrive is reported after a bounded number of later arrivals.
-/

namespace OLog

open Lib

namespace Tracker

/-- The misses reported for ticks from `start` up to `t`. -/
def missesBetween (start t : Int) (misses : List Int) : Nat :=
  misses.countP (fun m => start ≤ m ∧ m < t)

/-- The feeds with a later timestamp than `t`. -/
def laterThan (t : Int) (feeds : List StatisticsFeed) : Nat :=
  feeds.countP (fun f => t < f.exchangeTimestamp)

theorem laterThan_concat_le (t : Int) (feeds : List StatisticsFeed) (sf : StatisticsFeed) :
    laterThan t (feeds ++ [sf]) ≤ laterThan t feeds + 1 := by
  unfold laterThan
  rw [List.countP_append, List.countP_singleton]
  split_ifs <;> omega

theorem laterThan_concat_of_le {t : Int} {sf : StatisticsFeed} (h : sf.exchangeTimestamp ≤ t)
    (feeds : List StatisticsFeed) : laterThan t (feeds ++ [sf]) = laterThan t feeds := by
  have hno : ¬ t < sf.exchangeTimestamp := by omega
  simp [laterThan, List.countP_append, hno]

/-- Everything received behind the gap is kept. -/
theorem laterThan_le_kept {feeds : List StatisticsFeed} {tracker : Tracker}
    (h : tracker.Holds feeds) (sf : StatisticsFeed) {t : Int} (ht : tracker.gap sf ≤ t) :
    laterThan t (feeds ++ [sf]) ≤ (tracker.kept sf).card := by
  have hcount : laterThan t (feeds ++ [sf]) =
      ((feeds ++ [sf] : List StatisticsFeed) : Multiset StatisticsFeed).countP
        (fun f => t < f.exchangeTimestamp) :=
    (Multiset.coe_countP _ _).symm
  rw [hcount, kept_eq h, Multiset.countP_eq_card_filter]
  apply Multiset.card_le_card
  apply Multiset.monotone_filter_right
  intro f hf
  omega

/-- Receiving a feed keeps the bound: a wait leaves at most `queueLimit` feeds
behind the gap, and a further feed in a full queue costs one miss. -/
theorem receive_backlog {feeds : List StatisticsFeed} {tracker : Tracker} {misses : List Int}
    {start : Int} (h : tracker.Holds feeds) (hstart : start ≤ tracker.expectTimestamp)
    (hbound : ∀ t, tracker.expectTimestamp ≤ t →
      laterThan t feeds ≤ queueLimit + missesBetween start t misses)
    (sf : StatisticsFeed) (t : Int) (ht : (tracker.receive sf).1.expectTimestamp ≤ t) :
    laterThan t (feeds ++ [sf]) ≤ queueLimit +
      missesBetween start t (misses ++ missTicks (tracker.receive sf).2) := by
  have hle := (tracker.receive_expect_le sf).trans ht
  have hgap := tracker.le_gap sf
  have hmore : missesBetween start t misses ≤
      missesBetween start t (misses ++ missTicks (tracker.receive sf).2) := by
    unfold missesBetween
    rw [List.countP_append]
    omega
  rcases lt_trichotomy tracker.expectTimestamp sf.exchangeTimestamp with hts | hts | hts
  · by_cases hsize : queueLimit < (tracker.kept sf).card
    · have hold := hbound t hle
      have hnew := laterThan_concat_le t feeds sf
      rw [receive_early_miss hts hsize] at ht
      change tracker.gap sf + interval ≤ t at ht
      have hmiss : missTicks (tracker.receive sf).2 = [tracker.gap sf] := by
        rw [receive_early_miss hts hsize, missTicks_append, missTicks_continuity]
        rfl
      have hone : missesBetween start t [tracker.gap sf] = 1 := by
        have hlow : start ≤ tracker.gap sf := by omega
        have hhigh : tracker.gap sf < t := by
          have := interval_pos
          omega
        simp [missesBetween, hlow, hhigh]
      have hsum : missesBetween start t (misses ++ [tracker.gap sf]) =
          missesBetween start t misses + 1 := by
        rw [← hone]
        exact List.countP_append
      rw [hmiss, hsum]
      omega
    · rw [receive_early_wait hts (by omega)] at ht
      have hkept := laterThan_le_kept h sf ht
      omega
  · rw [laterThan_concat_of_le (by omega)]
    exact (hbound t hle).trans (by omega)
  · rw [laterThan_concat_of_le (by omega)]
    exact (hbound t hle).trans (by omega)

/-- The bound over a whole sequence. -/
theorem track_backlog (first : StatisticsFeed) (rest : List StatisticsFeed) :
    ∃ tracker, (track (first :: rest)).1 = some tracker ∧
      ∀ t, tracker.expectTimestamp ≤ t → laterThan t (first :: rest) ≤ queueLimit +
        missesBetween first.exchangeTimestamp t (missTicks (track (first :: rest)).2) := by
  induction rest using List.reverseRecOn with
  | nil =>
      refine ⟨_, rfl, ?_⟩
      intro t _
      have hlen : laterThan t [first] ≤ 1 := List.countP_le_length
      have hlimit : 1 ≤ queueLimit := by decide
      omega
  | append_singleton rest sf ih =>
      obtain ⟨tracker, htrack, hbound⟩ := ih
      obtain ⟨tracker', n, L, htrack', _, hacc⟩ := track_account first rest
      rw [htrack] at htrack'
      cases htrack'
      have hstart : first.exchangeTimestamp ≤ tracker.expectTimestamp := by
        rw [← hacc.books.next, hacc.balanced.next_eq]
        exact le_tick _ interval_pos n
      have hconcat := track_concat (first :: rest) sf
      rw [htrack] at hconcat
      refine ⟨(tracker.receive sf).1, ?_, ?_⟩
      · rw [← List.cons_append, hconcat]
        rfl
      · intro t ht
        have hstep := receive_backlog hacc.books.holds hstart hbound sf t ht
        rw [← List.cons_append, hconcat]
        change _ ≤ queueLimit + missesBetween _ t (missTicks (_ ++ (invalidAlerts sf ++ _)))
        rw [missTicks_append, missTicks_append, missTicks_invalid]
        exact hstep

end Tracker

/-- The ticks of the 'miss' alerts of a session. -/
def Session.missTicks (s : Session) : List Int := s.recorded.filterMap Alert.missTick?

variable {code : String}

theorem expectAfter_eq (arrivals : List (Arrival code)) :
    expectAfter arrivals = Tracker.expectAfter (arrivals.map Arrival.sf) := by
  unfold expectAfter Tracker.expectAfter
  rw [← contextAfter_view, Option.map_map]
  rfl

/-- A stream, its session and its account. -/
theorem stream_account (first : Arrival code) (rest : List (Arrival code)) :
    ∃ s context n L, stream (first :: rest) = .ok s ∧
      s.state.contextMap.getContext code = some context ∧ 1 ≤ n ∧
      Tracker.Account first.timestamp ((first :: rest).map Arrival.sf) context.view
        s.missTicks n L := by
  obtain ⟨s, hrun, _, htracker, hrecorded⟩ := stream_tracks (first :: rest)
  obtain ⟨tracker, n, L, htrack, hn, hacc⟩ :=
    Tracker.track_account first.sf (rest.map Arrival.sf)
  rw [List.map_cons, htrack] at htracker
  obtain ⟨context, hcontext, hview⟩ := Option.map_eq_some_iff.mp htracker
  refine ⟨s, context, n, L, hrun, hcontext, hn, ?_⟩
  unfold Session.missTicks
  rw [hview, hrecorded]
  exact hacc

/-- The first gives the grid; the expected tick is on it, after the first, and
never decreases; and of each tick that it has moved past, either a message had
arrived by then or a miss was recorded, once. No other miss is recorded. -/
theorem tick_accounting (first : Arrival code) (rest : List (Arrival code)) :
    ∃ s context, stream (first :: rest) = .ok s ∧
      s.state.contextMap.getContext code = some context ∧
      (∃ k : Nat, 1 ≤ k ∧ context.expectTimestamp = first.timestamp + k * interval) ∧
      (∀ shorter, shorter <+: first :: rest →
        ∀ e ∈ expectAfter shorter, e ≤ context.expectTimestamp) ∧
      (∀ j : Nat, first.timestamp + j * interval < context.expectTimestamp →
        Xor (InTime expectAfter Arrival.timestamp (first :: rest)
            (first.timestamp + j * interval))
          (s.missTicks.count (first.timestamp + j * interval) = 1)) ∧
      (∀ t, s.missTicks.count t ≤ 1) ∧
      ∀ t ∈ s.missTicks, ∃ j : Nat,
        t = first.timestamp + j * interval ∧ t < context.expectTimestamp := by
  obtain ⟨s, context, n, L, hrun, hcontext, hn, hacc⟩ := stream_account first rest
  have htick : ∀ j : Nat, first.timestamp + j * interval = tick first.timestamp interval j := by
    intro j
    simp [tick]
  have hnext : L.next = context.expectTimestamp := hacc.books.next
  have hmissed : L.missed = s.missTicks := hacc.books.missed
  have hintime : ∀ t, InTime expectAfter Arrival.timestamp (first :: rest) t ↔
      InTime Tracker.expectAfter StatisticsFeed.exchangeTimestamp
        ((first :: rest).map Arrival.sf) t :=
    InTime.congr Arrival.sf expectAfter_eq (fun _ => rfl) (first :: rest)
  have hbelow : ∀ t ∈ s.missTicks, ∃ j : Nat,
      t = first.timestamp + j * interval ∧ t < context.expectTimestamp := by
    intro t ht
    rw [← hmissed] at ht
    obtain ⟨j, hj, hlt⟩ :=
      hacc.balanced.booked_below interval_pos (List.mem_append_right _ ht)
    exact ⟨j, by rw [htick, hj], hnext ▸ hlt⟩
  have hbooked : ∀ j : Nat, first.timestamp + j * interval < context.expectTimestamp →
      L.passed.count (first.timestamp + j * interval) +
        s.missTicks.count (first.timestamp + j * interval) = 1 := by
    intro j hj
    rw [htick] at hj ⊢
    rw [← hmissed]
    exact hacc.balanced.booked_once interval_pos (hnext ▸ hj)
  refine ⟨s, context, hrun, hcontext, ⟨n, hn, ?_⟩, ?_, ?_, ?_, hbelow⟩
  · rw [htick, ← hacc.balanced.next_eq, hnext]
  · intro shorter hpre e he
    rw [expectAfter_eq] at he
    apply Tracker.expectAfter_mono (hpre.map Arrival.sf) he
    rw [← expectAfter_eq]
    simp [expectAfter, contextAfter, hrun, hcontext]
  · intro j hj
    have hone := hbooked j hj
    by_cases hmem : first.timestamp + j * interval ∈ s.missTicks
    · have hpos : 0 < s.missTicks.count (first.timestamp + j * interval) :=
        List.count_pos_iff.mpr hmem
      refine Or.inr ⟨by omega, ?_⟩
      rw [hintime]
      exact hacc.missed _ (hmissed ▸ hmem)
    · have hzero : s.missTicks.count (first.timestamp + j * interval) = 0 :=
        List.count_eq_zero.mpr hmem
      have hpassed : first.timestamp + j * interval ∈ L.passed := by
        apply List.count_pos_iff.mp
        omega
      refine Or.inl ⟨?_, by omega⟩
      rw [hintime]
      exact hacc.passed _ hpassed
  · intro t
    by_cases hmem : t ∈ s.missTicks
    · obtain ⟨j, rfl, hlt⟩ := hbelow t hmem
      have := hbooked j hlt
      omega
    · rw [List.count_eq_zero.mpr hmem]
      omega

/-- A tick that has not arrived is reported once 121 later messages have,
not counting one for each earlier tick that was reported. -/
theorem bounded_miss_detection (first : Arrival code) (rest : List (Arrival code)) :
    ∃ s, stream (first :: rest) = .ok s ∧
      ∀ j : Nat, 1 ≤ j →
        (∀ a ∈ first :: rest, a.timestamp ≠ first.timestamp + j * interval) →
        121 + s.missTicks.countP
            (fun m => first.timestamp ≤ m ∧ m < first.timestamp + j * interval) ≤
          (first :: rest).countP (fun a => first.timestamp + j * interval < a.timestamp) →
        first.timestamp + j * interval ∈ s.missTicks := by
  obtain ⟨s, context, n, L, hrun, hcontext, _, hacc⟩ := stream_account first rest
  obtain ⟨s', hrun', _, htracker, hrecorded⟩ := stream_tracks (first :: rest)
  obtain ⟨tracker, htrack, hbacklog⟩ :=
    Tracker.track_backlog first.sf (rest.map Arrival.sf)
  rw [hrun] at hrun'
  cases hrun'
  rw [← List.map_cons, ← htracker] at htrack
  rw [← List.map_cons, ← hrecorded] at hbacklog
  simp only [ExecState.tracker, hcontext, Option.map_some, Option.some.injEq] at htrack
  subst htrack
  refine ⟨s, hrun, ?_⟩
  intro j _ hmissing hlater
  rcases lt_or_ge (first.timestamp + j * interval) context.expectTimestamp with hlt | hge
  · -- the expected tick has moved past it: it was booked, and cannot have been passed
    have htick : first.timestamp + j * interval = tick first.timestamp interval j := by
      simp [tick]
    have hone := hacc.balanced.booked_once interval_pos (j := j)
      (by rw [← htick, hacc.books.next]; exact hlt)
    rw [← htick, hacc.books.missed] at hone
    have hnot : first.timestamp + j * interval ∉ L.passed := by
      intro hpassed
      obtain ⟨m, _, hmem⟩ := hacc.passed _ hpassed
      obtain ⟨sf, hsf, heq⟩ := List.mem_map.mp hmem
      obtain ⟨a, ha, rfl⟩ := List.mem_map.mp (List.mem_of_mem_take hsf)
      exact hmissing a ha heq
    rw [List.count_eq_zero.mpr hnot] at hone
    apply List.count_pos_iff.mp
    omega
  · -- it is still ahead: then fewer messages than that can be behind it
    exfalso
    have hbound := hbacklog _ hge
    have hcount : Tracker.laterThan (first.timestamp + j * interval)
        ((first :: rest).map Arrival.sf) =
        (first :: rest).countP (fun a => first.timestamp + j * interval < a.timestamp) :=
      List.countP_map
    rw [hcount] at hbound
    have hmisses : Tracker.missesBetween first.timestamp (first.timestamp + j * interval)
        s.missTicks = s.missTicks.countP
          (fun m => first.timestamp ≤ m ∧ m < first.timestamp + j * interval) := rfl
    change _ ≤ queueLimit + Tracker.missesBetween first.timestamp _ s.missTicks at hbound
    rw [hmisses] at hbound
    have hlimit : queueLimit = 120 := rfl
    omega

/-- Tick 1 does not arrive, ticks 2 to 122 do. -/
theorem bounded_miss_detection_gap :
    ∃ s, stream (sampleArrival 0 1 :: (List.range 121).map (fun i => sampleArrival (i + 2) 1)) =
        .ok s ∧ interval ∈ s.missTicks := by
  obtain ⟨s, hrun, hdetect⟩ := bounded_miss_detection (sampleArrival 0 1)
    ((List.range 121).map (fun i => sampleArrival (i + 2) 1))
  obtain ⟨s', _, n, L, hrun', _, _, hacc⟩ := stream_account (sampleArrival 0 1)
    ((List.range 121).map (fun i => sampleArrival (i + 2) 1))
  rw [hrun] at hrun'
  cases hrun'
  -- the only tick before is the first, which is not missed
  have hnone : s.missTicks.countP (fun m => (0 : Int) ≤ m ∧ m < interval) = 0 := by
    apply List.countP_eq_zero.mpr
    intro m hm hbetween
    have hbounds : 0 ≤ m ∧ m < interval := by simpa using hbetween
    rw [← hacc.books.missed] at hm
    obtain ⟨j, hj, _⟩ := hacc.balanced.booked_below interval_pos (List.mem_append_right _ hm)
    have hzero : m = 0 := by
      simp only [tick, sampleArrival, Arrival.timestamp, sampleFeed, interval, nsmul_eq_mul]
        at hj hbounds
      omega
    rw [hzero] at hm
    exact hacc.missed 0 hm (Tracker.inTime_first _ _)
  refine ⟨s, hrun, hdetect 1 (by decide) (by decide +kernel) ?_⟩
  change 121 + s.missTicks.countP (fun m => (0 : Int) ≤ m ∧ m < interval) ≤ _
  rw [hnone]
  decide +kernel

end OLog
