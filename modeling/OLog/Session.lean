import OLog.Execution

/-!
One processor over a sequence of messages, from an empty context map. The log
keeps, for each message, what its `exec` recorded, because the processor
forgets it at the next one. A session cannot fail, and it projects: for each
feedcode, its context and its alerts are those of the tracker fed with that
feedcode's Statistics feeds alone.
-/

namespace OLog

open Lib DeficiencyProcessor

def Feed.feedcode : Feed → String
  | .statistics sf => sf.feedcode
  | .price pf => pf.feedcode

def Feed.statistics? : Feed → Option StatisticsFeed
  | .statistics sf => some sf
  | .price _ => none

/-- The Statistics feeds of one feedcode, in the order of arrival. -/
def statisticsOf (code : String) (messages : List Incoming) : List StatisticsFeed :=
  messages.filterMap (fun i => i.feed.statistics?.filter (fun sf => sf.feedcode = code))

structure Session where
  state : ExecState
  log : List (Incoming × List Alert)

namespace Session

def start : Session := ⟨⟨Heap.empty, ContextMap.empty, DeficiencyProcessor.fresh⟩, []⟩

def process (s : Session) (incoming : Incoming) : Except Fault Session := do
  let (m, heap) := s.state.heap.alloc incoming.toMessage
  let state ← exec {s.state with heap := heap} m
  pure ⟨state, s.log ++ [(incoming, state.self.res.json)]⟩

def run (messages : List Incoming) : Except Fault Session :=
  messages.foldlM process start

/-- Every alert recorded so far, in order. -/
def recorded (s : Session) : List Alert := s.log.flatMap Prod.snd

/-- The alerts recorded by the messages of one feedcode, in order. -/
def recordedFor (s : Session) (code : String) : List Alert :=
  (s.log.filter (fun e => e.1.feed.feedcode = code)).flatMap Prod.snd

end Session

theorem start_owned : Session.start.state.Owned := by
  refine ⟨Heap.WF.empty, ?_, fun _ => List.nodup_nil⟩
  intro code r h
  cases h

theorem statisticsOf_concat (code : String) (messages : List Incoming) (incoming : Incoming) :
    statisticsOf code (messages ++ [incoming]) = statisticsOf code messages ++
      (incoming.feed.statistics?.filter (fun sf => sf.feedcode = code)).toList := by
  simp only [statisticsOf, List.filterMap_append]
  congr 1

namespace Session

theorem recordedFor_concat (s : Session) (state : ExecState) (incoming : Incoming)
    (alerts : List Alert) (code : String) :
    recordedFor ⟨state, s.log ++ [(incoming, alerts)]⟩ code = s.recordedFor code ++
      (if incoming.feed.feedcode = code then alerts else []) := by
  by_cases hcode : incoming.feed.feedcode = code
  · simp [recordedFor, hcode]
  · simp [recordedFor, hcode]

/-- The session after `messages`, seen per feedcode. -/
structure Projects (messages : List Incoming) (s : Session) : Prop where
  owned : s.state.Owned
  consumed : s.log.map Prod.fst = messages
  tracker : ∀ code, s.state.tracker code = (Tracker.track (statisticsOf code messages)).1
  recorded : ∀ code, s.recordedFor code = (Tracker.track (statisticsOf code messages)).2

theorem process_projects {messages : List Incoming} {s : Session} (h : Projects messages s)
    (incoming : Incoming) :
    ∃ t, s.process incoming = .ok t ∧ Projects (messages ++ [incoming]) t := by
  obtain ⟨message, feed⟩ := incoming
  let incoming : Incoming := ⟨message, feed⟩
  let ready : ExecState := {s.state with heap := (s.state.heap.alloc incoming.toMessage).2}
  have hready : ready.Owned := h.owned.alloc incoming.toMessage_places
  have hget : ready.heap.get? s.state.heap.brk =
      some (incoming.toMessage (s.state.heap.brk + 1)) := Heap.alloc_get?_new _ _
  cases feed with
  | price pf =>
      have hexec := exec_price hget rfl
      refine ⟨⟨ready.setRes ready.self.res.clear, s.log ++ [(incoming, [])]⟩, ?_,
        hready.clear, ?_, ?_, ?_⟩
      · change exec ready s.state.heap.brk >>= _ = _
        rw [hexec]
        rfl
      · simp [h.consumed, incoming]
      · intro code
        rw [statisticsOf_concat]
        simp only [Feed.statistics?, Option.filter_none, Option.toList_none, List.append_nil]
        exact h.tracker code
      · intro code
        rw [statisticsOf_concat, recordedFor_concat]
        simpa [Feed.statistics?] using h.recorded code
  | statistics sf =>
      have href := toMessage_statistics_ref? message sf (s.state.heap.brk + 1)
      obtain ⟨t, released, hexec, hdone⟩ := exec_executed hready hget href rfl
      refine ⟨⟨t, s.log ++ [(incoming, t.self.res.json)]⟩, ?_,
        hdone.owned hready hget href rfl, ?_, ?_, ?_⟩
      · change exec ready s.state.heap.brk >>= _ = _
        rw [hexec]
        rfl
      · simp [h.consumed, incoming]
      · intro code
        rw [statisticsOf_concat]
        by_cases hcode : sf.feedcode = code
        · subst hcode
          have hbefore : ready.tracker sf.feedcode = _ := h.tracker sf.feedcode
          simp only [Feed.statistics?, Option.filter_some, decide_true, if_true,
            Option.toList_some, Tracker.track_concat]
          rw [← hbefore]
          exact hdone.tracker
        · have hother : t.tracker code = s.state.tracker code := by
            unfold ExecState.tracker
            rw [hdone.others code (Ne.symm hcode)]
          rw [hother]
          simp only [Feed.statistics?, Option.filter_some, hcode, decide_false,
            Bool.false_eq_true, if_false, Option.toList_none, List.append_nil]
          exact h.tracker code
      · intro code
        rw [statisticsOf_concat, recordedFor_concat]
        by_cases hcode : sf.feedcode = code
        · subst hcode
          have hbefore : ready.tracker sf.feedcode = _ := h.tracker sf.feedcode
          have hjson := hdone.json
          rw [hbefore] at hjson
          simp only [Feed.statistics?, Option.filter_some, decide_true, if_true,
            Option.toList_some, Tracker.track_concat]
          rw [h.recorded, hjson]
          simp [incoming, Feed.feedcode]
        · simp only [Feed.statistics?, Feed.feedcode, incoming, Option.filter_some, hcode,
            decide_false, Bool.false_eq_true, if_false, Option.toList_none, List.append_nil]
          exact h.recorded code

/-- Any sequence of messages: the session succeeds and projects. -/
theorem run_projects (messages : List Incoming) :
    ∃ s, run messages = .ok s ∧ Projects messages s := by
  apply foldlM_history process messages
  · exact ⟨start_owned, rfl, fun _ => rfl, fun _ => rfl⟩
  · intro xs x t _ ht
    exact process_projects ht x

end Session

end OLog
