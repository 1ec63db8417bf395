import Mathlib.Data.Multiset.Filter
import Mathlib.Data.Finset.Image
import OLog.Deficiency
import OLog.Lib.Progression

/-!
What the processor does for one feedcode, without loops and pointers. A
tracker holds the expected tick and the *multiset* of feeds that wait for an
earlier one. An early feed joins the waiting ones; the expected tick then
moves, in one step, to the first gap in their timestamps, and everything up
to the gap leaves. The order of feeds with equal timestamps plays no role.
-/

namespace OLog

open Lib

theorem interval_pos : (0 : Int) < interval := by decide

structure Tracker where
  waiting : Multiset StatisticsFeed
  expectTimestamp : Int
  preValue : Rat
  preVolume : Int

/-- The timestamps that occur in a collection of feeds. -/
def timestamps (feeds : Multiset StatisticsFeed) : Finset Int :=
  (feeds.map StatisticsFeed.exchangeTimestamp).toFinset

theorem mem_timestamps {feeds : Multiset StatisticsFeed} {t : Int} :
    t ∈ timestamps feeds ↔ ∃ f ∈ feeds, f.exchangeTimestamp = t := by
  simp [timestamps]

namespace Tracker

/-- A feed whose turnover is below the stored pair. -/
def Below (sf : StatisticsFeed) (tracker : Tracker) : Prop :=
  sf.turnoverValue < tracker.preValue ∨ sf.turnoverVolume < tracker.preVolume

instance (sf : StatisticsFeed) (tracker : Tracker) : Decidable (Below sf tracker) := by
  unfold Below
  infer_instance

def monotonicityAlert (sf : StatisticsFeed) : Alert :=
  .monotonicity sf.feedcode sf.timestamp sf.turnoverVolume sf.turnoverValue

def delayAlert (sf : StatisticsFeed) (et : Int) : Alert :=
  .delay sf.feedcode sf.exchangeTimestamp (delaySeconds (et - sf.exchangeTimestamp))

/-- The tracker that a feedcode's first feed opens. -/
def opened (sf : StatisticsFeed) : Tracker where
  waiting := 0
  expectTimestamp := sf.exchangeTimestamp
  preValue := if sf.turnoverValue > 0 then sf.turnoverValue else 0
  preVolume := if sf.turnoverVolume > 0 then sf.turnoverVolume else 0

/-- The stored pair after `n` waiting feeds were accepted while `sf` was the
arriving one. -/
def accept (tracker : Tracker) (sf : StatisticsFeed) (n : Nat) : Tracker :=
  if n = 0 ∨ Below sf tracker then tracker
  else {tracker with preValue := sf.turnoverValue, preVolume := sf.turnoverVolume}

/-- One alert for each feed accepted while the arriving one is below the pair. -/
def continuityAlerts (tracker : Tracker) (sf : StatisticsFeed) (n : Nat) : List Alert :=
  if Below sf tracker then List.replicate n (monotonicityAlert sf) else []

/-- How many ticks, from the expected one on, wait without a gap. -/
def run (tracker : Tracker) (sf : StatisticsFeed) : Nat :=
  gapIndex (timestamps (sf ::ₘ tracker.waiting)) tracker.expectTimestamp interval_pos

/-- The first tick, from the expected one on, that is not waiting. -/
def gap (tracker : Tracker) (sf : StatisticsFeed) : Int :=
  tick tracker.expectTimestamp interval (tracker.run sf)

/-- What still waits once everything up to the gap has left. -/
def kept (tracker : Tracker) (sf : StatisticsFeed) : Multiset StatisticsFeed :=
  (sf ::ₘ tracker.waiting).filter (fun f => tracker.gap sf < f.exchangeTimestamp)

/-- The state after the drain, before the queue's size is looked at. -/
def drained (tracker : Tracker) (sf : StatisticsFeed) : Tracker :=
  {tracker.accept sf (tracker.run sf) with
    waiting := tracker.kept sf
    expectTimestamp := tracker.gap sf}

def receive (tracker : Tracker) (sf : StatisticsFeed) : Tracker × List Alert :=
  if tracker.expectTimestamp = sf.exchangeTimestamp then
    ({tracker with expectTimestamp := tracker.expectTimestamp + interval}, [])
  else if tracker.expectTimestamp > sf.exchangeTimestamp then
    (tracker, [delayAlert sf tracker.expectTimestamp])
  else
    let alerts := tracker.continuityAlerts sf (tracker.run sf)
    if (tracker.kept sf).card > queueLimit then
      ({tracker.drained sf with expectTimestamp := tracker.gap sf + interval},
        alerts ++ [.miss sf.feedcode (tracker.gap sf)])
    else
      (tracker.drained sf, alerts)

def invalidAlerts (sf : StatisticsFeed) : List Alert :=
  if sf.turnoverValue ≤ 0 ∨ sf.turnoverVolume ≤ 0 then
    [.invalidTurnover sf.feedcode sf.timestamp sf.turnoverVolume sf.turnoverValue]
  else []

/-- One Statistics feed; there is no tracker before the first one. -/
def exec (tracker : Option Tracker) (sf : StatisticsFeed) : Tracker × List Alert :=
  let (next, alerts) := (tracker.getD (opened sf)).receive sf
  (next, invalidAlerts sf ++ alerts)

/-- A whole sequence of feeds of one feedcode, with all alerts recorded. -/
def track (feeds : List StatisticsFeed) : Option Tracker × List Alert :=
  feeds.foldl (fun (tracker, alerts) sf =>
    let (next, new) := exec tracker sf
    (some next, alerts ++ new)) (none, [])

theorem receive_onTime {tracker : Tracker} {sf : StatisticsFeed}
    (h : tracker.expectTimestamp = sf.exchangeTimestamp) :
    tracker.receive sf =
      ({tracker with expectTimestamp := tracker.expectTimestamp + interval}, []) := by
  simp [receive, h]

theorem receive_late {tracker : Tracker} {sf : StatisticsFeed}
    (h : sf.exchangeTimestamp < tracker.expectTimestamp) :
    tracker.receive sf = (tracker, [delayAlert sf tracker.expectTimestamp]) := by
  have hne : tracker.expectTimestamp ≠ sf.exchangeTimestamp := by omega
  simp [receive, hne, h]

theorem receive_early_miss {tracker : Tracker} {sf : StatisticsFeed}
    (h : tracker.expectTimestamp < sf.exchangeTimestamp)
    (hsize : queueLimit < (tracker.kept sf).card) :
    tracker.receive sf =
      ({tracker.drained sf with expectTimestamp := tracker.gap sf + interval},
        tracker.continuityAlerts sf (tracker.run sf) ++
          [.miss sf.feedcode (tracker.gap sf)]) := by
  have hne : tracker.expectTimestamp ≠ sf.exchangeTimestamp := by omega
  have hle : ¬ tracker.expectTimestamp > sf.exchangeTimestamp := by omega
  simp [receive, hne, hle, hsize]

theorem receive_early_wait {tracker : Tracker} {sf : StatisticsFeed}
    (h : tracker.expectTimestamp < sf.exchangeTimestamp)
    (hsize : (tracker.kept sf).card ≤ queueLimit) :
    tracker.receive sf =
      (tracker.drained sf, tracker.continuityAlerts sf (tracker.run sf)) := by
  have hne : tracker.expectTimestamp ≠ sf.exchangeTimestamp := by omega
  have hle : ¬ tracker.expectTimestamp > sf.exchangeTimestamp := by omega
  have hno : ¬ (tracker.kept sf).card > queueLimit := by omega
  simp [receive, hne, hle, hno]

theorem gap_notMem (tracker : Tracker) (sf : StatisticsFeed) :
    tracker.gap sf ∉ timestamps (sf ::ₘ tracker.waiting) :=
  firstGap_notMem _ _ interval_pos

theorem le_gap (tracker : Tracker) (sf : StatisticsFeed) :
    tracker.expectTimestamp ≤ tracker.gap sf :=
  le_firstGap _ _ interval_pos

theorem mem_of_lt_run {tracker : Tracker} {sf : StatisticsFeed} {j : Nat}
    (hj : j < tracker.run sf) :
    tick tracker.expectTimestamp interval j ∈ timestamps (sf ::ₘ tracker.waiting) :=
  tick_mem_of_lt_gapIndex _ _ interval_pos hj

/-- From the expected tick up to `t`, every tick is at hand. -/
def NoGapUpTo (tracker : Tracker) (sf : StatisticsFeed) (t : Int) : Prop :=
  ∀ k : Nat, tick tracker.expectTimestamp interval k ≤ t →
    tick tracker.expectTimestamp interval k ∈ timestamps (sf ::ₘ tracker.waiting)

/-- The timestamps at hand that no gap comes before are those up to the gap. -/
theorem noGapUpTo_iff {tracker : Tracker} {sf : StatisticsFeed} {t : Int}
    (ht : t ∈ timestamps (sf ::ₘ tracker.waiting)) :
    tracker.NoGapUpTo sf t ↔ t ≤ tracker.gap sf := by
  constructor
  · intro hall
    by_contra hlt
    exact tracker.gap_notMem sf (hall (tracker.run sf) (not_le.mp hlt).le)
  · intro hle k hk
    have hne : t ≠ tracker.gap sf := by
      rintro rfl
      exact tracker.gap_notMem sf ht
    apply mem_of_lt_run
    by_contra hge
    have hmono : tracker.gap sf ≤ tick tracker.expectTimestamp interval k :=
      (tick_strictMono _ interval_pos).monotone (not_lt.mp hge)
    omega

theorem track_nil : track [] = (none, []) := rfl

theorem track_concat (feeds : List StatisticsFeed) (sf : StatisticsFeed) :
    track (feeds ++ [sf]) =
      (some (exec (track feeds).1 sf).1, (track feeds).2 ++ (exec (track feeds).1 sf).2) := by
  simp [track]

/-- The first feed is on time and opens the tracker. -/
theorem track_first (sf : StatisticsFeed) :
    track [sf] = (some {opened sf with expectTimestamp := sf.exchangeTimestamp + interval},
      invalidAlerts sf) := by
  have honTime : (opened sf).expectTimestamp = sf.exchangeTimestamp := rfl
  have hstep := track_concat [] sf
  rw [List.nil_append, track_nil] at hstep
  simp only [exec, Option.getD_none, receive_onTime honTime, List.append_nil,
    List.nil_append] at hstep
  exact hstep

end Tracker

end OLog
