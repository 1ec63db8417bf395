import OLog.Accounting
import OLog.Continuity

/-!
How much disorder a tracker puts up with. It reports no tick as missing exactly
if, at every point of the stream, at most `queueLimit` later feeds have arrived
for each tick that has not; and then no feed counts as late. Turnover is only
compared when the expected tick waits, so feeds that fill the first gap pass
unnoticed as long as new ones come between them.
-/

namespace OLog

open Lib

def Alert.isDelay : Alert → Bool
  | .delay .. => true
  | _ => false

namespace Tracker

/-- For each tick that has not arrived, at most a queue of later ones has. -/
def Tolerable (start : Int) (feeds : List StatisticsFeed) : Prop :=
  ∀ j : Nat, (∀ f ∈ feeds, f.exchangeTimestamp ≠ tick start interval j) →
    laterThan (tick start interval j) feeds ≤ queueLimit

def OnGrid (start : Int) (sf : StatisticsFeed) : Prop :=
  ∃ j : Nat, sf.exchangeTimestamp = tick start interval j

theorem prefix_track {seen feeds : List StatisticsFeed} (h : seen <+: feeds) :
    (track seen).2 <+: (track feeds).2 := by
  induction feeds using List.reverseRecOn with
  | nil => rw [List.prefix_nil.mp h]
  | append_singleton feeds sf ih =>
      rcases List.prefix_concat_iff.mp h with rfl | hshort
      · exact List.prefix_rfl
      · rw [track_concat]
        exact (ih hshort).trans (List.prefix_append _ _)

theorem exec_alerts_eq (tracker : Option Tracker) (sf : StatisticsFeed) :
    (exec tracker sf).2 = invalidAlerts sf ++ ((tracker.getD (opened sf)).receive sf).2 := rfl

/-- A run of a tracker that has feeds behind it. -/
theorem track_cons_concat (first : StatisticsFeed) (rest : List StatisticsFeed)
    (sf : StatisticsFeed) {tracker : Tracker}
    (htrack : (track (first :: rest)).1 = some tracker) :
    track (first :: (rest ++ [sf])) = (some (tracker.receive sf).1,
      (track (first :: rest)).2 ++ (invalidAlerts sf ++ (tracker.receive sf).2)) := by
  rw [← List.cons_append, track_concat, htrack]
  rfl

section Account

variable {start : Int} {feeds : List StatisticsFeed} {tracker : Tracker} {n : Nat}
  {L : Ledger Int} (h : Account start feeds tracker [] n L)

include h

/-- Without misses, every tick before the expected one has arrived. -/
theorem Account.received_of_lt {j : Nat}
    (hj : tick start interval j < tracker.expectTimestamp) :
    ∃ f ∈ feeds, f.exchangeTimestamp = tick start interval j := by
  have hone := h.balanced.booked_once interval_pos (h.books.next ▸ hj)
  rw [h.books.missed, List.count_nil, Nat.add_zero] at hone
  have hpassed : tick start interval j ∈ L.passed := List.count_pos_iff.mp (by omega)
  obtain ⟨_, _, hmem⟩ := h.passed _ hpassed
  obtain ⟨f, hf, heq⟩ := List.mem_map.mp hmem
  exact ⟨f, List.mem_of_mem_take hf, heq⟩

theorem Account.expect_eq : tracker.expectTimestamp = tick start interval n := by
  rw [← h.books.next, h.balanced.next_eq]

end Account

/-- Reporting the tick at the gap means that too many later feeds are there. -/
theorem not_tolerable_of_miss {start : Int} {feeds : List StatisticsFeed} {tracker : Tracker}
    {misses : List Int} {n : Nat} {L : Ledger Int} (h : Account start feeds tracker misses n L)
    {sf : StatisticsFeed} (hmiss : missTicks (tracker.receive sf).2 ≠ []) :
    ¬ Tolerable start (feeds ++ [sf]) := by
  intro htolerable
  have hexpect : tracker.expectTimestamp = tick start interval n := by
    rw [← h.books.next, h.balanced.next_eq]
  have hgap : tracker.gap sf = tick start interval (n + tracker.run sf) := by
    rw [gap, hexpect, tick_tick]
  have habsent := gap_not_received h.books.holds sf
  rw [hgap] at habsent
  have hbound := htolerable (n + tracker.run sf) habsent
  have hcount : laterThan (tick start interval (n + tracker.run sf)) (feeds ++ [sf]) =
      (tracker.kept sf).card := by
    rw [kept_eq h.books.holds, hgap, ← Multiset.countP_eq_card_filter]
    exact (Multiset.coe_countP _ _).symm
  apply hmiss
  rcases lt_trichotomy tracker.expectTimestamp sf.exchangeTimestamp with ht | ht | ht
  · rw [receive_early_wait ht (by omega), missTicks_continuity]
  · rw [receive_onTime ht]
    rfl
  · rw [receive_late ht]
    rfl

theorem tolerable_of_no_miss {first : StatisticsFeed} {rest : List StatisticsFeed}
    (h : missTicks (track (first :: rest)).2 = []) :
    Tolerable first.exchangeTimestamp (first :: rest) := by
  intro j habsent
  obtain ⟨tracker, n, L, htrack, _, hacc⟩ := track_account first rest
  obtain ⟨tracker', htrack', hbacklog⟩ := track_backlog first rest
  cases htrack.symm.trans htrack'
  rw [h] at hacc hbacklog
  rcases lt_or_ge (tick first.exchangeTimestamp interval j) tracker.expectTimestamp with hlt | hge
  · obtain ⟨f, hf, heq⟩ := hacc.received_of_lt hlt
    exact absurd heq (habsent f hf)
  · exact hbacklog _ hge

/-- Nothing is reported as missing exactly if the disorder is tolerable all
along. -/
theorem missTicks_nil_iff (first : StatisticsFeed) (rest : List StatisticsFeed) :
    missTicks (track (first :: rest)).2 = [] ↔
      ∀ seen, seen <+: first :: rest → Tolerable first.exchangeTimestamp seen := by
  constructor
  · intro hnone seen hseen
    cases seen with
    | nil => exact fun j _ => Nat.zero_le _
    | cons f seen =>
        obtain ⟨rfl, _⟩ := List.cons_prefix_cons.mp hseen
        apply tolerable_of_no_miss
        have hpre := (prefix_track hseen).filterMap Alert.missTick?
        change missTicks _ <+: missTicks _ at hpre
        rw [hnone] at hpre
        exact List.prefix_nil.mp hpre
  · intro hall
    induction rest using List.reverseRecOn with
    | nil =>
        rw [track_first]
        exact missTicks_invalid first
    | append_singleton rest sf ih =>
        have hbefore := ih (fun seen hseen =>
          hall seen (hseen.trans ⟨[sf], by simp⟩))
        obtain ⟨tracker, n, L, htrack, _, hacc⟩ := track_account first rest
        rw [track_cons_concat first rest sf htrack, missTicks_append, missTicks_append, hbefore,
          missTicks_invalid, List.nil_append, List.nil_append]
        by_contra hmiss
        apply not_tolerable_of_miss hacc hmiss
        exact hall _ List.prefix_rfl

theorem isDelay_invalidAlerts (sf : StatisticsFeed) :
    ∀ alert ∈ invalidAlerts sf, alert.isDelay = false := by
  intro alert halert
  unfold invalidAlerts at halert
  split at halert
  · rw [List.mem_singleton.mp halert]
    rfl
  · cases halert

/-- What an alert says about the feed that gave rise to it. -/
theorem receive_alert {tracker : Tracker} {sf : StatisticsFeed} {alert : Alert}
    (h : alert ∈ (tracker.receive sf).2) :
    alert.isMonotonicity = true ∨
      alert.isDelay = true ∧ sf.exchangeTimestamp < tracker.expectTimestamp ∨
      alert = .miss sf.feedcode (tracker.gap sf) := by
  have hcontinuity : alert ∈ tracker.continuityAlerts sf (tracker.run sf) →
      alert.isMonotonicity = true := by
    intro halert
    unfold continuityAlerts at halert
    split at halert
    · rw [List.eq_of_mem_replicate halert]
      rfl
    · cases halert
  rcases lt_trichotomy tracker.expectTimestamp sf.exchangeTimestamp with ht | ht | ht
  · by_cases hsize : queueLimit < (tracker.kept sf).card
    · rw [receive_early_miss ht hsize] at h
      rcases List.mem_append.mp h with h | h
      · exact Or.inl (hcontinuity h)
      · exact Or.inr (Or.inr (List.mem_singleton.mp h))
    · rw [receive_early_wait ht (by omega)] at h
      exact Or.inl (hcontinuity h)
  · rw [receive_onTime ht] at h
    cases h
  · rw [receive_late ht] at h
    rw [List.mem_singleton.mp h]
    exact Or.inr (Or.inl ⟨rfl, ht⟩)

/-- Then no feed is late that has not arrived before. -/
theorem no_delay_of_no_miss {first : StatisticsFeed} {rest : List StatisticsFeed}
    (h : missTicks (track (first :: rest)).2 = [])
    (hdistinct : (first :: rest).Pairwise (fun f g => f.exchangeTimestamp ≠ g.exchangeTimestamp))
    (hgrid : ∀ sf ∈ rest, OnGrid first.exchangeTimestamp sf) :
    ∀ alert ∈ (track (first :: rest)).2, alert.isDelay = false := by
  induction rest using List.reverseRecOn with
  | nil =>
      rw [track_first]
      exact isDelay_invalidAlerts first
  | append_singleton rest sf ih =>
      obtain ⟨tracker, n, L, htrack, _, hacc⟩ := track_account first rest
      rw [track_cons_concat first rest sf htrack] at h ⊢
      obtain ⟨hbefore, _⟩ := List.append_eq_nil_iff.mp ((missTicks_append _ _).symm.trans h)
      rw [← List.cons_append] at hdistinct
      obtain ⟨hold, _, hnew⟩ := List.pairwise_append.mp hdistinct
      rw [hbefore] at hacc
      intro alert halert
      rcases List.mem_append.mp halert with halert | halert
      · exact ih hbefore hold (fun f hf => hgrid f (List.mem_append_left _ hf)) alert halert
      · rcases List.mem_append.mp halert with halert | halert
        · exact isDelay_invalidAlerts sf alert halert
        · rcases receive_alert halert with hmono | ⟨_, hlate⟩ | rfl
          · cases alert <;> first | rfl | cases hmono
          · -- a tick before the expected one has arrived, and this would be its second feed
            obtain ⟨j, hj⟩ := hgrid sf (List.mem_append_right _ List.mem_cons_self)
            obtain ⟨f, hf, heq⟩ := hacc.received_of_lt (hj ▸ hlate)
            exact absurd (heq.trans hj.symm) (hnew f hf sf List.mem_cons_self)
          · rfl

theorem expecting_pair (tracker : Tracker) (t : Int) :
    ({tracker with expectTimestamp := t} : Tracker).pair = tracker.pair := rfl

theorem drained_pair (tracker : Tracker) (sf : StatisticsFeed) :
    (tracker.drained sf).pair = tracker.pair ∨ (tracker.drained sf).pair = sf.turnover := by
  unfold pair drained accept
  split_ifs
  · exact Or.inl rfl
  · exact Or.inr rfl

/-- The stored pair is the turnover of some feed. -/
theorem receive_pair (tracker : Tracker) (sf : StatisticsFeed) :
    (tracker.receive sf).1.pair = tracker.pair ∨ (tracker.receive sf).1.pair = sf.turnover := by
  have hdrained := tracker.drained_pair sf
  rcases lt_trichotomy tracker.expectTimestamp sf.exchangeTimestamp with ht | ht | ht
  · by_cases hsize : queueLimit < (tracker.kept sf).card
    · rw [receive_early_miss ht hsize, expecting_pair]
      exact hdrained
    · rw [receive_early_wait ht (by omega)]
      exact hdrained
  · rw [receive_onTime ht, expecting_pair]
    exact Or.inl rfl
  · rw [receive_late ht]
    exact Or.inl rfl

theorem pair_mem {first : StatisticsFeed} (hvalue : 0 < first.turnoverValue)
    (hvolume : 0 < first.turnoverVolume) (rest : List StatisticsFeed) :
    ∃ tracker, (track (first :: rest)).1 = some tracker ∧
      ∃ f ∈ first :: rest, tracker.pair = f.turnover := by
  induction rest using List.reverseRecOn with
  | nil =>
      obtain ⟨tracker, htrack, hpair, _⟩ := first_quiet hvalue hvolume
      exact ⟨tracker, htrack, first, List.mem_cons_self, hpair⟩
  | append_singleton rest sf ih =>
      obtain ⟨tracker, htrack, f, hf, hpair⟩ := ih
      rw [track_cons_concat first rest sf htrack]
      refine ⟨_, rfl, ?_⟩
      rcases tracker.receive_pair sf with hsame | hnew
      · exact ⟨f, List.mem_append_left [sf] hf, hsame.trans hpair⟩
      · exact ⟨sf, List.mem_append_right (first :: rest) List.mem_cons_self, hnew⟩

/-- The feed is the newest so far, in time and in turnover. -/
def Newest (seen : List StatisticsFeed) (sf : StatisticsFeed) : Prop :=
  ∀ f ∈ seen, f.exchangeTimestamp < sf.exchangeTimestamp ∧ f.turnover ≤ sf.turnover

theorem quiet_newest {first sf : StatisticsFeed} {rest : List StatisticsFeed}
    (hvalue : 0 < first.turnoverValue) (hvolume : 0 < first.turnoverVolume)
    (hquiet : Quiet (track (first :: rest)).2) (hnewest : Newest (first :: rest) sf) :
    Quiet (track ((first :: rest) ++ [sf])).2 := by
  obtain ⟨tracker, htrack, f, hf, hpair⟩ := pair_mem hvalue hvolume rest
  apply (quiet_track_concat htrack sf).mpr
  refine ⟨hquiet, fun _ => ?_⟩
  rw [hpair]
  exact (hnewest f hf).2

/-- A stream in order, with turnover that never falls. -/
theorem quiet_of_pairwise {first : StatisticsFeed} {rest : List StatisticsFeed}
    (hvalue : 0 < first.turnoverValue) (hvolume : 0 < first.turnoverVolume)
    (h : (first :: rest).Pairwise (fun f g =>
      f.exchangeTimestamp < g.exchangeTimestamp ∧ f.turnover ≤ g.turnover)) :
    Quiet (track (first :: rest)).2 := by
  induction rest using List.reverseRecOn with
  | nil =>
      obtain ⟨_, _, _, hquiet⟩ := first_quiet hvalue hvolume
      exact hquiet
  | append_singleton rest sf ih =>
      rw [← List.cons_append] at h ⊢
      obtain ⟨hold, _, hnew⟩ := List.pairwise_append.mp h
      exact quiet_newest hvalue hvolume (ih hold)
        (fun f hf => hnew f hf sf List.mem_cons_self)

/-- The feed is that of the first tick that has not arrived. -/
structure FillsGap (start : Int) (seen : List StatisticsFeed) (sf : StatisticsFeed) : Prop where
  grid : OnGrid start sf
  before : ∀ j : Nat, tick start interval j < sf.exchangeTimestamp →
    ∃ f ∈ seen, f.exchangeTimestamp = tick start interval j

def EndsNewest (seen : List StatisticsFeed) : Prop :=
  ∀ before last, seen = before ++ [last] → Newest before last

/-- Late feeds come in the order of their ticks, and not two in a row. -/
def Orderly (feeds : List StatisticsFeed) : Prop :=
  ∀ first rest sf, (first :: rest) ++ [sf] <+: feeds →
    Newest (first :: rest) sf ∨
      FillsGap first.exchangeTimestamp (first :: rest) sf ∧ EndsNewest (first :: rest)

theorem Orderly.of_concat {feeds : List StatisticsFeed} {sf : StatisticsFeed}
    (h : Orderly (feeds ++ [sf])) : Orderly feeds :=
  fun first rest sf' hpre => h first rest sf' (hpre.trans (List.prefix_append _ _))

/-- After the newest feed the expected tick is one that has not arrived. -/
theorem expect_of_newest {start : Int} {feeds : List StatisticsFeed} {tracker : Tracker}
    {n : Nat} {L : Ledger Int} (hacc : Account start feeds tracker [] n L) {sf : StatisticsFeed}
    (hgrid : OnGrid start sf) (hnewest : Newest feeds sf)
    (hmiss : missTicks (tracker.receive sf).2 = []) :
    ∀ f ∈ feeds ++ [sf], f.exchangeTimestamp ≠ (tracker.receive sf).1.expectTimestamp := by
  rcases lt_trichotomy tracker.expectTimestamp sf.exchangeTimestamp with ht | ht | ht
  · by_cases hsize : queueLimit < (tracker.kept sf).card
    · rw [receive_early_miss ht hsize, missTicks_append, missTicks_continuity] at hmiss
      cases hmiss
    · rw [receive_early_wait ht (by omega)]
      exact gap_not_received hacc.books.holds sf
  · rw [receive_onTime ht]
    have hpos := interval_pos
    intro f hf
    change f.exchangeTimestamp ≠ tracker.expectTimestamp + interval
    rcases List.mem_append.mp hf with hf | hf
    · have := (hnewest f hf).1
      omega
    · rw [List.mem_singleton.mp hf]
      omega
  · obtain ⟨j, hj⟩ := hgrid
    obtain ⟨f, hf, heq⟩ := hacc.received_of_lt (hj ▸ ht)
    have := (hnewest f hf).1
    omega

/-- A feed that fills the first gap is on time. -/
theorem FillsGap.onTime {start : Int} {feeds : List StatisticsFeed} {tracker : Tracker} {n : Nat}
    {L : Ledger Int} (hacc : Account start feeds tracker [] n L) {sf : StatisticsFeed}
    (hfills : FillsGap start feeds sf)
    (hnew : ∀ f ∈ feeds, f.exchangeTimestamp ≠ sf.exchangeTimestamp)
    (hexpect : ∀ f ∈ feeds, f.exchangeTimestamp ≠ tracker.expectTimestamp) :
    tracker.expectTimestamp = sf.exchangeTimestamp := by
  rcases lt_trichotomy tracker.expectTimestamp sf.exchangeTimestamp with ht | ht | ht
  · have heq := hacc.expect_eq
    obtain ⟨f, hf, hft⟩ := hfills.before n (heq ▸ ht)
    exact absurd (hft.trans heq.symm) (hexpect f hf)
  · exact ht
  · obtain ⟨j, hj⟩ := hfills.grid
    obtain ⟨f, hf, hft⟩ := hacc.received_of_lt (hj ▸ ht)
    exact absurd (hft.trans hj.symm) (hnew f hf)

/-- A stream in which late feeds fill the gaps one by one. -/
theorem quiet_of_orderly {first : StatisticsFeed} {rest : List StatisticsFeed}
    (hvalue : 0 < first.turnoverValue) (hvolume : 0 < first.turnoverVolume)
    (hmiss : missTicks (track (first :: rest)).2 = [])
    (hdistinct : (first :: rest).Pairwise (fun f g => f.exchangeTimestamp ≠ g.exchangeTimestamp))
    (hgrid : ∀ sf ∈ rest, OnGrid first.exchangeTimestamp sf)
    (horderly : Orderly (first :: rest)) :
    Quiet (track (first :: rest)).2 ∧ ∀ tracker ∈ (track (first :: rest)).1,
      EndsNewest (first :: rest) →
        ∀ f ∈ first :: rest, f.exchangeTimestamp ≠ tracker.expectTimestamp := by
  induction rest using List.reverseRecOn with
  | nil =>
      obtain ⟨_, _, _, hquiet⟩ := first_quiet hvalue hvolume
      refine ⟨hquiet, ?_⟩
      rw [track_first]
      intro tracker htracker _ f hf
      cases htracker
      rw [List.mem_singleton.mp hf]
      have := interval_pos
      change first.exchangeTimestamp ≠ first.exchangeTimestamp + interval
      omega
  | append_singleton rest sf ih =>
      obtain ⟨tracker, n, L, htrack, _, hacc⟩ := track_account first rest
      rw [track_cons_concat first rest sf htrack, missTicks_append, missTicks_append,
        missTicks_invalid] at hmiss
      obtain ⟨hbefore, hnow⟩ := List.append_eq_nil_iff.mp hmiss
      rw [← List.cons_append] at hdistinct horderly ⊢
      obtain ⟨hold, _, hnew⟩ := List.pairwise_append.mp hdistinct
      rw [hbefore] at hacc
      obtain ⟨hquiet, hexpect⟩ := ih hbefore hold
        (fun f hf => hgrid f (List.mem_append_left _ hf)) horderly.of_concat
      constructor
      · rcases horderly first rest sf List.prefix_rfl with hnewest | ⟨hfills, hends⟩
        · exact quiet_newest hvalue hvolume hquiet hnewest
        · apply (quiet_track_concat htrack sf).mpr
          refine ⟨hquiet, fun hchecks => ?_⟩
          have honTime := FillsGap.onTime hacc hfills
            (fun f hf => hnew f hf sf List.mem_cons_self) (hexpect tracker htrack hends)
          have := hchecks.1
          omega
      · intro tracker' htracker' hends
        rw [List.cons_append, track_cons_concat first rest sf htrack] at htracker'
        cases htracker'
        apply expect_of_newest hacc (hgrid sf (List.mem_append_right _ List.mem_cons_self))
        · exact hends _ _ rfl
        · exact hnow

/-- Without continuity alerts, misses and delays, each feed speaks for itself. -/
theorem track_calm {feeds : List StatisticsFeed} (hquiet : Quiet (track feeds).2)
    (hmiss : missTicks (track feeds).2 = [])
    (hdelay : ∀ alert ∈ (track feeds).2, alert.isDelay = false) :
    (track feeds).2 = feeds.flatMap invalidAlerts := by
  induction feeds using List.reverseRecOn with
  | nil => rfl
  | append_singleton feeds sf ih =>
      rw [track_concat] at hquiet hmiss hdelay ⊢
      rw [missTicks_append] at hmiss
      obtain ⟨hbefore, hnow⟩ := List.append_eq_nil_iff.mp hmiss
      rw [List.flatMap_append, List.flatMap_singleton,
        ih (fun a ha => hquiet a (List.mem_append_left _ ha)) hbefore
          (fun a ha => hdelay a (List.mem_append_left _ ha))]
      have hnone : (((track feeds).1.getD (opened sf)).receive sf).2 = [] := by
        apply List.eq_nil_iff_forall_not_mem.mpr
        intro alert halert
        have hmem : alert ∈ (exec (track feeds).1 sf).2 := List.mem_append_right _ halert
        rcases receive_alert halert with hmono | ⟨hlate, _⟩ | rfl
        · rw [hquiet alert (List.mem_append_right _ hmem)] at hmono
          cases hmono
        · rw [hdelay alert (List.mem_append_right _ hmem)] at hlate
          cases hlate
        · have hin : ((track feeds).1.getD (opened sf)).gap sf ∈
              missTicks (exec (track feeds).1 sf).2 := List.mem_filterMap.mpr ⟨_, hmem, rfl⟩
          rw [hnow] at hin
          cases hin
      rw [exec_alerts_eq, hnone, List.append_nil]

/-- Without continuity alerts, delays and invalid turnover, only misses. -/
theorem track_misses {feeds : List StatisticsFeed} {code : String}
    (hcode : ∀ sf ∈ feeds, sf.feedcode = code) (hvalid : ∀ sf ∈ feeds, invalidAlerts sf = [])
    (hquiet : Quiet (track feeds).2)
    (hdelay : ∀ alert ∈ (track feeds).2, alert.isDelay = false) :
    (track feeds).2 = (missTicks (track feeds).2).map (Alert.miss code) := by
  have hall : ∀ alert ∈ (track feeds).2, ∃ t, alert = .miss code t := by
    induction feeds using List.reverseRecOn with
    | nil => exact List.forall_mem_nil _
    | append_singleton feeds sf ih =>
        obtain ⟨hcode', hsf⟩ := List.forall_mem_append.mp hcode
        obtain ⟨hvalid', hok⟩ := List.forall_mem_append.mp hvalid
        rw [track_concat] at hquiet hdelay ⊢
        obtain ⟨hquiet', hnow⟩ := List.forall_mem_append.mp hquiet
        obtain ⟨hdelay', hlate⟩ := List.forall_mem_append.mp hdelay
        have hexec : (exec (track feeds).1 sf).2 =
            (((track feeds).1.getD (opened sf)).receive sf).2 := by
          rw [exec_alerts_eq, hok sf List.mem_cons_self, List.nil_append]
        intro alert halert
        rcases List.mem_append.mp halert with halert | halert
        · exact ih hcode' hvalid' hquiet' hdelay' alert halert
        have hmono := hnow alert halert
        have hdelayed := hlate alert halert
        rw [hexec] at halert
        rcases receive_alert halert with hkind | ⟨hkind, _⟩ | rfl
        · exact absurd (hmono.symm.trans hkind) (by decide)
        · exact absurd (hdelayed.symm.trans hkind) (by decide)
        · exact ⟨_, by rw [hsf sf List.mem_cons_self]⟩
  clear hcode hvalid hquiet hdelay
  unfold missTicks
  generalize (track feeds).2 = alerts at hall
  induction alerts with
  | nil => rfl
  | cons alert alerts ih =>
      obtain ⟨⟨t, rfl⟩, hrest⟩ := List.forall_mem_cons.mp hall
      rw [List.filterMap_cons_some (show Alert.missTick? (.miss code t) = some t from rfl),
        List.map_cons, ← ih hrest]

end Tracker

section Stream

variable {code : String}

/-- Both ways, for every stream: it is free of 'miss' alerts exactly if at no
point more than 120 messages were ahead of one still to come; and then, unless
messages come twice or off the grid, it is free of 'delay' alerts as well. -/
theorem reordering_tolerated_iff (first : Arrival code) (rest : List (Arrival code)) :
    ∃ s, stream (first :: rest) = .ok s ∧
      (s.missTicks = [] ↔ ∀ seen, seen <+: first :: rest → ∀ j : Nat,
        (∀ a ∈ seen, a.timestamp ≠ first.timestamp + j * interval) →
        seen.countP (fun a => first.timestamp + j * interval < a.timestamp) ≤ 120) ∧
      (s.missTicks = [] →
        (first :: rest).Pairwise (fun a b => a.timestamp ≠ b.timestamp) →
        (∀ a ∈ rest, ∃ j : Nat, a.timestamp = first.timestamp + j * interval) →
        ∀ alert ∈ s.recorded, alert.isDelay = false) := by
  obtain ⟨s, hrun, _, _, hrecorded⟩ := stream_tracks (first :: rest)
  have htick : ∀ j : Nat, first.timestamp + j * interval =
      tick first.sf.exchangeTimestamp interval j := by
    intro j
    simp [tick, Arrival.timestamp]
  have hmisses : s.missTicks =
      Tracker.missTicks (Tracker.track (first.sf :: rest.map Arrival.sf)).2 := by
    unfold Session.missTicks Tracker.missTicks
    rw [hrecorded, List.map_cons]
  refine ⟨s, hrun, ?_, ?_⟩
  · rw [hmisses, Tracker.missTicks_nil_iff]
    constructor
    · intro hall seen hseen j habsent
      have htolerable := hall (seen.map Arrival.sf) (hseen.map Arrival.sf) j (by
        intro f hf
        obtain ⟨a, ha, rfl⟩ := List.mem_map.mp hf
        rw [← htick]
        exact habsent a ha)
      rw [Tracker.laterThan, List.countP_map, ← htick] at htolerable
      exact htolerable
    · intro hall feeds hfeeds j habsent
      rw [← List.map_cons (f := Arrival.sf)] at hfeeds
      obtain ⟨seen, hseen, rfl⟩ := List.prefix_map_iff.mp hfeeds
      have hbound := hall seen hseen j (by
        intro a ha
        rw [htick]
        exact habsent a.sf (List.mem_map_of_mem ha))
      rw [Tracker.laterThan, List.countP_map, ← htick]
      exact hbound
  · intro hnone hdistinct hgrid
    rw [hmisses] at hnone
    rw [hrecorded]
    apply Tracker.no_delay_of_no_miss hnone
    · rw [← List.map_cons (f := Arrival.sf), List.pairwise_map]
      exact hdistinct
    · intro sf hsf
      obtain ⟨a, ha, rfl⟩ := List.mem_map.mp hsf
      obtain ⟨j, hj⟩ := hgrid a ha
      exact ⟨j, hj.trans (htick j)⟩

end Stream

end OLog
