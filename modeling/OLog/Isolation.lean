import OLog.Session

/-!
Feedcodes do not interfere: the projection of a session to one feedcode is the
session of that feedcode's Statistics messages alone. Results about one
feedcode are therefore stated over a stream, whose messages carry the
feedcode in their type.
-/

namespace OLog

open Lib

def Incoming.isStatisticsOf (code : String) (incoming : Incoming) : Bool :=
  match incoming.feed with
  | .statistics sf => sf.feedcode = code
  | .price _ => false

theorem statistics?_of_isStatisticsOf {code : String} {incoming : Incoming}
    (h : incoming.isStatisticsOf code = true) :
    incoming.feed.feedcode = code ∧ ∃ sf, incoming.feed = .statistics sf ∧
      incoming.feed.statistics?.filter (fun sf => sf.feedcode = code) = some sf := by
  obtain ⟨message, feed⟩ := incoming
  cases feed with
  | price pf => cases h
  | statistics sf =>
      have hcode : sf.feedcode = code := by simpa [Incoming.isStatisticsOf] using h
      exact ⟨hcode, sf, rfl, by simp [Feed.statistics?, hcode]⟩

theorem statistics?_of_not_isStatisticsOf {code : String} {incoming : Incoming}
    (h : incoming.isStatisticsOf code = false) :
    incoming.feed.statistics?.filter (fun sf => sf.feedcode = code) = none := by
  obtain ⟨message, feed⟩ := incoming
  cases feed with
  | price pf => rfl
  | statistics sf =>
      have hcode : ¬ sf.feedcode = code := by simpa [Incoming.isStatisticsOf] using h
      simp [Feed.statistics?, hcode]

/-- Filtering the messages first does not change the feeds of the feedcode. -/
theorem statisticsOf_filter (code : String) (messages : List Incoming) :
    statisticsOf code (messages.filter (Incoming.isStatisticsOf code)) =
      statisticsOf code messages := by
  induction messages with
  | nil => rfl
  | cons incoming rest ih =>
      unfold statisticsOf at ih ⊢
      cases h : incoming.isStatisticsOf code with
      | true => rw [List.filter_cons_of_pos h, List.filterMap_cons, List.filterMap_cons, ih]
      | false =>
          rw [List.filter_cons_of_neg (by simp [h]), List.filterMap_cons,
            statistics?_of_not_isStatisticsOf h, ih]

namespace Session

/-- If all messages are of one feedcode, its alerts are all alerts. -/
theorem Projects.recorded_eq {messages : List Incoming} {s : Session}
    (h : Projects messages s) {code : String}
    (hcode : ∀ incoming ∈ messages, incoming.feed.feedcode = code) :
    s.recorded = s.recordedFor code := by
  unfold Session.recorded recordedFor
  rw [List.filter_eq_self.mpr]
  intro entry hentry
  have hmem : entry.1 ∈ messages := by
    rw [← h.consumed]
    exact List.mem_map_of_mem hentry
  simpa using hcode entry.1 hmem

/-- Two runs: a session over any mix of messages, and a fresh session over the
Statistics messages of one feedcode in it. They agree on the context of that
feedcode and on the alert texts that its messages record. -/
theorem feedcodes_do_not_interfere (messages : List Incoming) (code : String) :
    ∃ mixed alone, run messages = .ok mixed ∧
      run (messages.filter (Incoming.isStatisticsOf code)) = .ok alone ∧
      mixed.state.tracker code = alone.state.tracker code ∧
      (mixed.recordedFor code).map Alert.text = alone.recorded.map Alert.text := by
  obtain ⟨mixed, hmixed, hm⟩ := run_projects messages
  obtain ⟨alone, halone, ha⟩ := run_projects (messages.filter (Incoming.isStatisticsOf code))
  refine ⟨mixed, alone, hmixed, halone, ?_, ?_⟩
  · rw [hm.tracker, ha.tracker, statisticsOf_filter]
  · have hall : alone.recorded = alone.recordedFor code := by
      apply ha.recorded_eq
      intro incoming hincoming
      exact (statistics?_of_isStatisticsOf (List.mem_filter.mp hincoming).2).1
    rw [hall, hm.recorded, ha.recorded, statisticsOf_filter]

end Session

/-- A Statistics message of one feedcode. -/
structure Arrival (code : String) where
  message : KafkaMessage
  sf : StatisticsFeed
  feedcode_eq : sf.feedcode = code

namespace Arrival

variable {code : String}

def incoming (a : Arrival code) : Incoming := ⟨a.message, .statistics a.sf⟩

def timestamp (a : Arrival code) : Int := a.sf.exchangeTimestamp

end Arrival

section Stream

variable {code : String}

/-- One processor over the messages of one feedcode. -/
def stream (arrivals : List (Arrival code)) : Except Fault Session :=
  Session.run (arrivals.map Arrival.incoming)

/-- The context of the feedcode after a stream. -/
def contextAfter (arrivals : List (Arrival code)) : Option Context :=
  match stream arrivals with
  | .ok s => s.state.contextMap.getContext code
  | .error _ => none

/-- The expected tick after a stream. -/
def expectAfter (arrivals : List (Arrival code)) : Option Int :=
  (contextAfter arrivals).map Context.expectTimestamp

theorem statisticsOf_arrivals (arrivals : List (Arrival code)) :
    statisticsOf code (arrivals.map Arrival.incoming) = arrivals.map Arrival.sf := by
  induction arrivals with
  | nil => rfl
  | cons a rest ih =>
      have hhead : (a.incoming.feed.statistics?.filter
          (fun sf => sf.feedcode = code)) = some a.sf := by
        simp [Arrival.incoming, Feed.statistics?, a.feedcode_eq]
      unfold statisticsOf at ih ⊢
      rw [List.map_cons, List.map_cons, List.filterMap_cons, hhead, ih]

/-- A stream succeeds and follows the tracker. -/
theorem stream_tracks (arrivals : List (Arrival code)) :
    ∃ s, stream arrivals = .ok s ∧ s.state.Owned ∧
      s.state.tracker code = (Tracker.track (arrivals.map Arrival.sf)).1 ∧
      s.recorded = (Tracker.track (arrivals.map Arrival.sf)).2 := by
  obtain ⟨s, hrun, h⟩ := Session.run_projects (arrivals.map Arrival.incoming)
  have hall : s.recorded = s.recordedFor code := by
    apply h.recorded_eq
    intro incoming hincoming
    obtain ⟨a, _, rfl⟩ := List.mem_map.mp hincoming
    exact a.feedcode_eq
  refine ⟨s, hrun, h.owned, ?_, ?_⟩
  · rw [h.tracker, statisticsOf_arrivals]
  · rw [hall, h.recorded, statisticsOf_arrivals]

theorem contextAfter_view (arrivals : List (Arrival code)) :
    (contextAfter arrivals).map Context.view =
      (Tracker.track (arrivals.map Arrival.sf)).1 := by
  obtain ⟨s, hrun, _, htracker, _⟩ := stream_tracks arrivals
  rw [← htracker]
  unfold contextAfter
  rw [hrun]
  rfl

/-- One more message: its context is the one before, or the one it opens, after
receiving it. -/
theorem contextAfter_concat (seen : List (Arrival code)) (a : Arrival code) :
    ∃ context, contextAfter (seen ++ [a]) = some context ∧
      context.view = ((((contextAfter seen).map Context.view).getD
        (Tracker.opened a.sf)).receive a.sf).1 := by
  have hview := contextAfter_view (seen ++ [a])
  rw [List.map_append, List.map_singleton, Tracker.track_concat, ← contextAfter_view] at hview
  obtain ⟨context, hcontext, heq⟩ := Option.map_eq_some_iff.mp hview
  exact ⟨context, hcontext, heq⟩

@[simp] theorem contextAfter_nil : contextAfter ([] : List (Arrival code)) = none := rfl

/-- A stream can be run to see what holds at its end. -/
theorem stream_exists_of_check {arrivals : List (Arrival code)}
    {P : Session → Context → Prop} [∀ s context, Decidable (P s context)]
    (h : (stream arrivals).toOption.any (fun s =>
      (s.state.contextMap.getContext code).any (fun context => P s context)) = true) :
    ∃ s context, stream arrivals = .ok s ∧
      s.state.contextMap.getContext code = some context ∧ P s context := by
  have hcheck : ∃ s, stream arrivals = .ok s ∧ (s.state.contextMap.getContext code).any
      (fun context => P s context) = true :=
    exists_ok_of_check (by simpa using h)
  obtain ⟨s, hrun, hany⟩ := hcheck
  cases hcontext : s.state.contextMap.getContext code with
  | none =>
      rw [hcontext] at hany
      cases hany
  | some context =>
      rw [hcontext] at hany
      exact ⟨s, context, hrun, hcontext, of_decide_eq_true hany⟩

/-- A message with a sample feed. -/
def sampleArrival (i v : Nat) : Arrival "rb1000" := ⟨⟨"feed", 0, i⟩, sampleFeed i v, rfl⟩

end Stream

end OLog
