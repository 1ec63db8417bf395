import OLog.Publish

/-!
What the monitor is for, without heap, queues, result codes and threads. It
holds one tracker for each feedcode and remembers whether it ever had to warn:
a continuity alert alone is passed on only after that. The event loop refines
it. Whatever the order in which the loop's thread and the thread that calls
`store_offset` take their steps, the loop hands to its producer, in the same
order, what the monitor says about the feeds consumed so far.
-/

namespace OLog

open Lib DeficiencyProcessor

/-- The alert about a Price feed that makes no sense. -/
def Feed.priceAlerts : Feed → List Alert
  | .statistics _ => []
  | .price pf =>
      let log := ValidityProcessor.logText pf
      if log = "" then []
      else [.validity pf.feedcode pf.exchangeTimestamp pf.bidPrice pf.askPrice pf.bidVolume
        pf.askVolume log]

structure Monitor where
  trackers : String → Option Tracker
  /-- An alert other than a continuity alert has been recorded. -/
  warned : Bool

namespace Monitor

def fresh : Monitor := ⟨fun _ => none, false⟩

/-- The alerts that a feed gives rise to as one of a sequence. -/
def recorded (M : Monitor) : Feed → List Alert
  | .statistics sf => (Tracker.exec (M.trackers sf.feedcode) sf).2
  | .price _ => []

def next (M : Monitor) : Feed → Monitor
  | .statistics sf =>
      let (tracker, alerts) := Tracker.exec (M.trackers sf.feedcode) sf
      ⟨Function.update M.trackers sf.feedcode (some tracker),
        M.warned || alerts.any Alert.warns⟩
  | .price _ => M

/-- Of the recorded alerts, those that are passed on. -/
def reported (M : Monitor) (feed : Feed) : List Alert :=
  if (M.next feed).warned then M.recorded feed else []

def published (M : Monitor) (feed : Feed) : List Alert := M.reported feed ++ feed.priceAlerts

/-- A whole sequence of feeds, with everything that is passed on. -/
def watch (feeds : List Feed) : Monitor × List Alert :=
  feeds.foldl (fun (M, alerts) feed => (M.next feed, alerts ++ M.published feed)) (fresh, [])

theorem watch_concat (feeds : List Feed) (feed : Feed) :
    watch (feeds ++ [feed]) =
      ((watch feeds).1.next feed, (watch feeds).2 ++ (watch feeds).1.published feed) := by
  simp [watch]

/-- A record without a feed changes nothing. -/
theorem watch_record (before : List Record) (record : Record) :
    watch ((before ++ [record]).filterMap Record.feed) =
      match record.feed with
      | some feed => watch (before.filterMap Record.feed ++ [feed])
      | none => watch (before.filterMap Record.feed) := by
  cases hfeed : record.feed <;> simp [List.filterMap_append, hfeed]

end Monitor

theorem Record.ref?_toMessage (record : Record) (addr : Nat) :
    (record.toMessage addr).ref? =
      (record.feed.bind Feed.statistics?).map (fun sf => ⟨addr, sf⟩) := by
  obtain ⟨message, feed, type₀⟩ := record
  cases feed with
  | none => cases type₀ <;> rfl
  | some feed => cases feed <;> rfl

/-- What the event loop passes on after the validity check of a record. -/
theorem validity_published {v v' : ValidityProcessor} {msg : MyMessage} {record : Record}
    {addr : Nat} (hcontent : msg.content = (record.toMessage addr).content)
    (hexec : v.exec msg = .ok v') :
    (if v'.res.code ≠ .ok then v'.res.json else []) = record.feed.elim [] Feed.priceAlerts := by
  obtain ⟨_, hfeed, htype⟩ := content_eq hcontent
  obtain ⟨message, feed, type₀⟩ := record
  unfold ValidityProcessor.exec at hexec
  rw [hfeed, htype] at hexec
  cases feed with
  | none => cases type₀ <;> cases hexec <;> simp
  | some feed =>
      cases feed with
      | statistics sf => cases hexec; simp [Feed.priceAlerts]
      | price pf =>
          cases hexec
          by_cases hlog : ValidityProcessor.logText pf = ""
          · simp [Feed.priceAlerts, ProRes.push, hlog]
          · simp [Feed.priceAlerts, ProRes.push, ProRes.clear, hlog]

namespace EventLoop

/-- `l` is reached by steps of the two threads, in any order, in which
`records` were consumed. -/
inductive Ran (processors : List Processor) : List Record → EventLoop → Prop
  | start : Ran processors [] (start processors)
  | consume {records : List Record} {l : EventLoop} (hran : Ran processors records l)
      (record : Record) (hidle : l.running = none) :
      Ran processors (records ++ [record]) (l.consume record)
  | exec {records : List Record} {l : EventLoop} (hran : Ran processors records l)
      (l' : EventLoop) (hpending : l.pending ≠ []) (hexec : l.execNext = .ok l') :
      Ran processors records l'
  | poll {records : List Record} {l : EventLoop} (hran : Ran processors records l)
      (hdone : l.pending = []) : Ran processors records l.poll
  | store {records : List Record} {l : EventLoop} (hran : Ran processors records l)
      (l' : EventLoop) (hstore : l.storeOffset = .ok l') : Ran processors records l'

theorem Ran.reachable {processors : List Processor} {records : List Record} {l : EventLoop}
    (h : Ran processors records l) : Reachable processors l := by
  induction h with
  | start => exact Relation.ReflTransGen.refl
  | consume _ record hidle ih => exact ih.tail (Step.consume record hidle)
  | exec _ l' hpending hexec ih => exact ih.tail (Step.exec l' hpending hexec)
  | poll _ hdone ih => exact ih.tail (Step.poll hdone)
  | store _ l' hstore ih => exact ih.tail (Step.store l' hstore)

/-- Between two messages. -/
def Resting (l : EventLoop) : Prop := l.running = none ∧ l.pending = []

/-- A whole iteration is a sequence of steps of the loop's thread. -/
theorem Ran.iterate {processors : List Processor} {records : List Record} {l l' : EventLoop}
    {record : Record} (h : Ran processors records l) (hidle : l.running = none)
    (hiterate : l.iterate record = .ok l') :
    Ran processors (records ++ [record]) l' ∧ l'.Resting := by
  obtain ⟨s, hs, hpoll⟩ := bind_eq_ok.mp hiterate
  cases hpoll
  have hrun := foldlM_ok_history
    (I := fun (seen : List Processor) (s : EventLoop) =>
      Ran processors (records ++ [record]) s ∧ s.running ≠ none ∧
        s.pending = l.processors.drop seen.length) hs
    ⟨h.consume record hidle, by simp [EventLoop.consume], rfl⟩
    (by
      rintro seen p u v _ ⟨hran, hrunning, hpending⟩ hexec
      obtain ⟨hsame, htail⟩ := execNext_cursor hexec
      refine ⟨?_, by rw [hsame]; exact hrunning, ?_⟩
      · by_cases hne : u.pending = []
        · rw [execNext_idle (Or.inr hne)] at hexec
          cases hexec
          exact hran
        · exact hran.exec v hne hexec
      · rw [htail hrunning, hpending, List.tail_drop, List.length_append, List.length_singleton])
  obtain ⟨hran, _, hpending⟩ := hrun
  rw [List.drop_length] at hpending
  exact ⟨hran.poll hpending, rfl, hpending⟩

def Event.record? : Event → Option Record
  | .iterate incoming => some incoming.record
  | .storeOffset => none

/-- Runs of whole iterations are among the interleavings of the two threads. -/
theorem Ran.of_run {processors : List Processor}
    (hone : processors.filterMap Processor.deficiency? = [DeficiencyProcessor.fresh])
    {events : List Event} {l : EventLoop} (hrun : run processors events = .ok l) :
    Ran processors (events.filterMap Event.record?) l ∧ l.Resting := by
  apply foldlM_ok_history (I := fun seen l =>
    Ran processors (seen.filterMap Event.record?) l ∧ l.Resting) hrun ⟨Ran.start, rfl, rfl⟩
  rintro seen event u v _ ⟨hran, hidle, hpending⟩ happly
  rw [List.filterMap_append]
  cases event with
  | iterate incoming => exact hran.iterate hidle happly
  | storeOffset =>
      obtain ⟨d, hinv⟩ := hran.reachable.inv hone
      obtain ⟨hstored, _⟩ := storeOffset_inv hinv happly
      obtain ⟨_, _, hpending', hrunning, _⟩ := hstored.frame
      rw [List.filterMap_cons_none (show Event.storeOffset.record? = none from rfl),
        List.filterMap_nil, List.append_nil]
      exact ⟨hran.store v happly, hrunning.trans hidle, hpending'.trans hpending⟩

/-- The loop's contexts and its Deficiency processor hold what the monitor holds. -/
structure Shows (l : EventLoop) (d : DeficiencyProcessor) (M : Monitor) : Prop where
  trackers : ∀ code, (l.contextMap.getContext code).map Context.view = M.trackers code
  warned : d.res.code ≠ .ok ↔ M.warned = true

/-- The message at hand, if it still exists, is the one made from `record`. -/
def AtHand (l : EventLoop) (record : Record) : Prop :=
  ∃ m, l.running = some m ∧ ∃ addr, ∀ msg, l.heap.get? m = some msg →
    msg.content = (record.toMessage addr).content

/-- How the loop relates to the monitor: between two messages, with a new
message at hand, and with a message that the Deficiency processor has seen. -/
inductive Mirrors (records : List Record) (l : EventLoop) : Prop
  | between (d : DeficiencyProcessor) (v : ValidityProcessor)
      (hprocessed : l.processed = [.deficiency d, .validity v]) (hpending : l.pending = [])
      (hshows : l.Shows d (Monitor.watch (records.filterMap Record.feed)).1)
      (hproduced : l.produced = (Monitor.watch (records.filterMap Record.feed)).2)
  | consumed (d : DeficiencyProcessor) (v : ValidityProcessor) (before : List Record)
      (record : Record) (hrecords : records = before ++ [record]) (hhand : l.AtHand record)
      (hprocessed : l.processed = []) (hpending : l.pending = [.deficiency d, .validity v])
      (hshows : l.Shows d (Monitor.watch (before.filterMap Record.feed)).1)
      (hproduced : l.produced = (Monitor.watch (before.filterMap Record.feed)).2)
  | halfway (d : DeficiencyProcessor) (v : ValidityProcessor) (before : List Record)
      (record : Record) (hrecords : records = before ++ [record]) (hhand : l.AtHand record)
      (hprocessed : l.processed = [.deficiency d]) (hpending : l.pending = [.validity v])
      (hshows : l.Shows d (Monitor.watch (records.filterMap Record.feed)).1)
      (hproduced : l.produced = (Monitor.watch (before.filterMap Record.feed)).2 ++
        record.feed.elim [] (Monitor.watch (before.filterMap Record.feed)).1.reported)

theorem start_mirrors : Mirrors [] (start mainProcessors) := by
  refine .between DeficiencyProcessor.fresh ValidityProcessor.fresh rfl rfl ⟨fun _ => rfl, ?_⟩ rfl
  decide

section Steps

variable {records : List Record} {l l' : EventLoop} {d : DeficiencyProcessor}

theorem Mirrors.consume (h : Mirrors records l) (hidle : l.running = none) (record : Record) :
    Mirrors (records ++ [record]) (l.consume record) := by
  cases h with
  | consumed _ _ _ _ _ hhand =>
      obtain ⟨m, hrun, _⟩ := hhand
      rw [hidle] at hrun
      cases hrun
  | halfway _ _ _ _ _ hhand =>
      obtain ⟨m, hrun, _⟩ := hhand
      rw [hidle] at hrun
      cases hrun
  | between d v hprocessed hpending hshows hproduced =>
      refine .consumed d v records record rfl ⟨l.heap.brk, rfl, l.heap.brk + 1, ?_⟩ rfl ?_
        ⟨hshows.trackers, hshows.warned⟩ hproduced
      · intro msg hmsg
        rw [consume_heap, if_pos rfl, Option.some.injEq] at hmsg
        rw [hmsg]
      · simp [EventLoop.consume, EventLoop.processors, hprocessed, hpending]

theorem Mirrors.poll (h : Mirrors records l) (hdone : l.pending = []) :
    Mirrors records l.poll := by
  cases h with
  | between d v hprocessed hpending hshows hproduced =>
      exact .between d v hprocessed hpending ⟨hshows.trackers, hshows.warned⟩ hproduced
  | consumed _ _ _ _ _ _ _ hpending =>
      rw [hdone] at hpending
      cases hpending
  | halfway _ _ _ _ _ _ _ hpending =>
      rw [hdone] at hpending
      cases hpending

theorem AtHand.store {record : Record} {parts : List Int} (h : l.AtHand record)
    (hstored : StoredOn l parts l') : l'.AtHand record := by
  obtain ⟨m, hrun, addr, hcontent⟩ := h
  obtain ⟨_, _, _, hrunning, _⟩ := hstored.frame
  exact ⟨m, hrunning.trans hrun, addr, fun msg hmsg => hcontent msg (hstored.sub hmsg).1⟩

/-- `store_offset` is invisible to the monitor, wherever it falls. -/
theorem Mirrors.store {parts : List Int} (h : Mirrors records l)
    (hstored : StoredOn l parts l') : Mirrors records l' := by
  obtain ⟨hcontext, hprocessed', hpending', _, hproduced'⟩ := hstored.frame
  have hshown : ∀ {d M}, l.Shows d M → l'.Shows d M := by
    intro d M hshows
    exact ⟨fun code => by rw [hcontext]; exact hshows.trackers code, hshows.warned⟩
  cases h with
  | between d v hprocessed hpending hshows hproduced =>
      exact .between d v (hprocessed'.trans hprocessed) (hpending'.trans hpending)
        (hshown hshows) (hproduced'.trans hproduced)
  | consumed d v before record hrecords hhand hprocessed hpending hshows hproduced =>
      exact .consumed d v before record hrecords (hhand.store hstored)
        (hprocessed'.trans hprocessed) (hpending'.trans hpending) (hshown hshows)
        (hproduced'.trans hproduced)
  | halfway d v before record hrecords hhand hprocessed hpending hshows hproduced =>
      exact .halfway d v before record hrecords (hhand.store hstored)
        (hprocessed'.trans hprocessed) (hpending'.trans hpending) (hshown hshows)
        (hproduced'.trans hproduced)

/-- What the Deficiency processor makes of a record, seen by the monitor. -/
structure Noted (l : EventLoop) (M : Monitor) (record : Record) (t : ExecState) : Prop where
  trackers : ∀ code, t.tracker code = (record.feed.elim M M.next).trackers code
  warned : t.self.res.code ≠ .ok ↔ (record.feed.elim M M.next).warned = true
  json : (if t.self.res.code ≠ .ok then t.self.res.json else []) = record.feed.elim [] M.reported
  kept : l.heap.Kept t.heap

theorem Noted.of_no_ref {M : Monitor} (hshows : l.Shows d M) {record : Record} {m addr : Nat}
    {msg : MyMessage} {t : ExecState} (hmsg : l.heap.get? m = some msg)
    (hnone : record.feed.bind Feed.statistics? = none)
    (href : msg.ref? = (record.toMessage addr).ref?)
    (hexec : DeficiencyProcessor.exec (l.execState d) m = .ok t) : Noted l M record t := by
  have ht : t = (l.execState d).setRes d.res.clear := by
    apply exec_of_no_ref (show (l.execState d).heap.get? m = some msg from hmsg) ?_ hexec
    rw [href, record.ref?_toMessage, hnone]
    rfl
  have hnext : record.feed.elim M M.next = M := by
    cases hfeed : record.feed with
    | none => rfl
    | some feed =>
        rw [hfeed] at hnone
        cases feed with
        | statistics sf => cases hnone
        | price pf => rfl
  have hreported : record.feed.elim [] M.reported = [] := by
    cases hfeed : record.feed with
    | none => rfl
    | some feed =>
        rw [hfeed] at hnone
        cases feed with
        | statistics sf => cases hnone
        | price pf => simp [Monitor.reported, Monitor.recorded]
  subst ht
  refine ⟨fun code => ?_, ?_, ?_, Heap.Kept.refl _⟩
  · rw [hnext]
    exact hshows.trackers code
  · rw [hnext]
    exact hshows.warned
  · rw [hreported]
    exact ite_self _

theorem Noted.of_statistics {M : Monitor} (hshows : l.Shows d M) {record : Record} {m addr : Nat}
    {sf : StatisticsFeed} {released : List FeedRef} {t : ExecState}
    (hfeed : record.feed = some (.statistics sf))
    (hdone : Executed (l.execState d) m ⟨addr, sf⟩ released t) : Noted l M record t := by
  have htracker : (l.execState d).tracker sf.feedcode = M.trackers sf.feedcode :=
    hshows.trackers sf.feedcode
  have hwarned : t.self.res.code ≠ .ok ↔ (M.next (.statistics sf)).warned = true := by
    have hcode := hdone.code
    rw [htracker] at hcode
    rw [hcode, codeAfter_ne_ok, show (l.execState d).self.res.code = d.res.code from rfl,
      hshows.warned]
    simp [Monitor.next]
  refine ⟨fun code => ?_, ?_, ?_, hdone.kept⟩
  · rw [hfeed]
    by_cases hcode : code = sf.feedcode
    · subst hcode
      have htracker' := hdone.tracker
      rw [htracker] at htracker'
      simpa [Monitor.next] using htracker'
    · unfold ExecState.tracker
      rw [hdone.others code hcode]
      exact (hshows.trackers code).trans (Function.update_of_ne hcode _ _).symm
  · rw [hfeed]
    exact hwarned
  · rw [hfeed]
    have hjson := hdone.json
    rw [htracker] at hjson
    by_cases hw : (M.next (.statistics sf)).warned = true
    · rw [if_pos (hwarned.mpr hw), hjson]
      simp [Monitor.reported, Monitor.recorded, hw]
    · rw [if_neg (mt hwarned.mp hw)]
      simp [Monitor.reported, hw]

theorem Inv.noted (hinv : l.Inv d) {M : Monitor} (hshows : l.Shows d M) {record : Record}
    {m addr : Nat} {msg : MyMessage} {pending : List Processor} (hrun : l.running = some m)
    (hpending : l.pending = .deficiency d :: pending) (hmsg : l.heap.get? m = some msg)
    (hcontent : msg.content = (record.toMessage addr).content) {t : ExecState}
    (hexec : DeficiencyProcessor.exec (l.execState d) m = .ok t) : Noted l M record t := by
  have href := ref?_eq_of_content hcontent
  cases hsf : record.feed.bind Feed.statistics? with
  | none => exact Noted.of_no_ref hshows hmsg hsf href hexec
  | some sf =>
      rw [record.ref?_toMessage, hsf] at href
      obtain ⟨t', released, hexec', hdone, _⟩ := hinv.execNext_statistics hrun hpending hmsg href
      rw [hexec] at hexec'
      cases hexec'
      obtain ⟨feed, hfeed, hstatistics⟩ := Option.bind_eq_some_iff.mp hsf
      cases feed with
      | price pf => cases hstatistics
      | statistics sf' =>
          cases hstatistics
          exact Noted.of_statistics hshows hfeed hdone

/-- The monitor's own step, for a record that may carry no feed. -/
theorem watch_record_state (before : List Record) (record : Record) :
    (Monitor.watch ((before ++ [record]).filterMap Record.feed)).1 =
      record.feed.elim (Monitor.watch (before.filterMap Record.feed)).1
        (Monitor.watch (before.filterMap Record.feed)).1.next := by
  rw [Monitor.watch_record]
  cases record.feed <;> simp [Monitor.watch_concat]

theorem watch_record_alerts (before : List Record) (record : Record) :
    (Monitor.watch ((before ++ [record]).filterMap Record.feed)).2 =
      (Monitor.watch (before.filterMap Record.feed)).2 ++
        record.feed.elim [] (Monitor.watch (before.filterMap Record.feed)).1.reported ++
        record.feed.elim [] Feed.priceAlerts := by
  rw [Monitor.watch_record]
  cases record.feed <;> simp [Monitor.watch_concat, Monitor.published]

theorem append_ite {α : Type} (p : Prop) [Decidable p] (first second : List α) :
    (if p then first ++ second else first) = first ++ (if p then second else []) := by
  split <;> simp

theorem Mirrors.exec (h : Mirrors records l) (hinv : ∀ d pending,
    l.pending = .deficiency d :: pending → l.Inv d) (hpending : l.pending ≠ [])
    (hexec : l.execNext = .ok l') : Mirrors records l' := by
  cases h with
  | between _ _ _ hnone => exact absurd hnone hpending
  | consumed d v before record hrecords hhand hprocessed hturn hshows hproduced =>
      obtain ⟨m, hrun, addr, hcontent⟩ := hhand
      obtain ⟨msg, hmsg⟩ := execNext_present hrun hpending hexec
      rw [execNext_deficiency hrun hturn, map_eq_ok] at hexec
      obtain ⟨t, ht, rfl⟩ := hexec
      have hnoted := (hinv d _ hturn).noted hshows hrun hturn hmsg (hcontent msg hmsg) ht
      refine .halfway t.self v before record hrecords ⟨m, hrun, addr, ?_⟩ ?_ rfl ⟨?_, ?_⟩ ?_
      · intro msg' hmsg'
        obtain ⟨old, hold, hsame⟩ := hnoted.kept.symm.get hmsg'
        exact hsame.symm.trans (hcontent old hold)
      · simp [advance, hprocessed]
      · rw [hrecords, watch_record_state]
        exact hnoted.trackers
      · rw [hrecords, watch_record_state]
        exact hnoted.warned
      · rw [← hnoted.json, ← hproduced]
        exact append_ite _ _ _
  | halfway d v before record hrecords hhand hprocessed hturn hshows hproduced =>
      obtain ⟨m, hrun, addr, hcontent⟩ := hhand
      obtain ⟨msg, hmsg⟩ := execNext_present hrun hpending hexec
      rw [execNext_validity hrun hturn hmsg, map_eq_ok] at hexec
      obtain ⟨v', hv, rfl⟩ := hexec
      refine .between d v' ?_ rfl ⟨hshows.trackers, hshows.warned⟩ ?_
      · simp [advance, hprocessed]
      · rw [hrecords, watch_record_alerts, ← hproduced,
          ← validity_published (hcontent msg hmsg) hv]
        exact append_ite _ _ _

end Steps

/-- One induction over the steps of both threads. -/
theorem Ran.mirrors {records : List Record} {l : EventLoop}
    (h : Ran mainProcessors records l) : Mirrors records l := by
  induction h with
  | start => exact start_mirrors
  | consume _ record hidle ih => exact ih.consume hidle record
  | exec hran l' hpending hexec ih =>
      exact ih.exec (fun d pending hturn => hran.reachable.inv_of_turn rfl hturn) hpending hexec
  | poll _ hdone ih => exact ih.poll hdone
  | store hran l' hstore ih =>
      obtain ⟨d, hinv⟩ := hran.reachable.inv rfl
      exact ih.store (storeOffset_inv hinv hstore).1

/-- Between two messages everything has been published. -/
theorem Ran.settled {records : List Record} {l : EventLoop} (h : Ran mainProcessors records l)
    (hdone : l.pending = []) :
    l.produced = (Monitor.watch (records.filterMap Record.feed)).2 ∧
      ∀ code, (l.contextMap.getContext code).map Context.view =
        (Monitor.watch (records.filterMap Record.feed)).1.trackers code := by
  cases h.mirrors with
  | between d v _ _ hshows hproduced => exact ⟨hproduced, hshows.trackers⟩
  | consumed _ _ _ _ _ _ _ hpending => exact absurd (hpending.symm.trans hdone) (by simp)
  | halfway _ _ _ _ _ _ _ hpending => exact absurd (hpending.symm.trans hdone) (by simp)

theorem Ran.watched {records : List Record} {l : EventLoop} (h : Ran mainProcessors records l) :
    l.produced <+: (Monitor.watch (records.filterMap Record.feed)).2 := by
  cases h.mirrors with
  | between d v _ _ _ hproduced => exact hproduced ▸ List.prefix_rfl
  | consumed d v before record hrecords _ _ _ _ hproduced =>
      rw [hproduced, hrecords, watch_record_alerts, List.append_assoc]
      exact List.prefix_append _ _
  | halfway d v before record hrecords _ _ _ _ hproduced =>
      rw [hproduced, hrecords, watch_record_alerts]
      exact List.prefix_append _ _

theorem published_as_watched {records : List Record} {l : EventLoop}
    (h : Ran mainProcessors records l) :
    l.produced <+: (Monitor.watch (records.filterMap Record.feed)).2 ∧
      (l.pending = [] →
        l.produced = (Monitor.watch (records.filterMap Record.feed)).2 ∧
        ∀ code, (l.contextMap.getContext code).map Context.view =
          (Monitor.watch (records.filterMap Record.feed)).1.trackers code) :=
  ⟨h.watched, h.settled⟩

def crossedIncoming (offset : Int) : Incoming :=
  ⟨⟨"feed", 0, offset⟩, .price {feedcode := "rb1000", bidPrice := 2, askPrice := 1}⟩

/-- With calls of `store_offset` in between: the second tick is early and
waits, the price is invalid, and the third feed has no turnover. -/
def sampleMixed : List Event :=
  [.iterate (sampleIncoming 0 0 1), .storeOffset, .iterate (sampleIncoming 1 2 3),
    .iterate (crossedIncoming 2), .storeOffset, .iterate (sampleIncoming 3 1 0)]

theorem published_as_watched_mixed :
    ∃ l, run mainProcessors sampleMixed = .ok l ∧ l.produced.length = 2 ∧
      l.produced = (Monitor.watch ((sampleMixed.filterMap Event.record?).filterMap
        Record.feed)).2 := by
  have hcheck : ∃ l, run mainProcessors sampleMixed = .ok l ∧ l.produced.length = 2 := by
    apply exists_ok_of_check
    decide +kernel
  obtain ⟨l, hrun, hlength⟩ := hcheck
  obtain ⟨hran, _, hpending⟩ := Ran.of_run rfl hrun
  exact ⟨l, hrun, hlength, ((published_as_watched hran).2 hpending).1⟩

end EventLoop

def Alert.feedcode : Alert → String
  | .invalidTurnover feedcode .. | .delay feedcode .. | .monotonicity feedcode ..
  | .miss feedcode .. | .validity feedcode .. => feedcode

def Alert.isValidity : Alert → Bool
  | .validity .. => true
  | _ => false

/-- The alerts about the sequence of Statistics feeds of one feedcode. -/
def Alert.follows (code : String) (alert : Alert) : Bool :=
  alert.feedcode = code && !alert.isValidity

def Feed.statisticsOf? (code : String) : Feed → Option StatisticsFeed
  | .statistics sf => if sf.feedcode = code then some sf else none
  | .price _ => none

/-- The Statistics feeds of one feedcode, in order. -/
def statisticsAmong (code : String) (feeds : List Feed) : List StatisticsFeed :=
  feeds.filterMap (Feed.statisticsOf? code)

theorem statisticsAmong_concat (code : String) (feeds : List Feed) (feed : Feed) :
    statisticsAmong code (feeds ++ [feed]) =
      statisticsAmong code feeds ++ (feed.statisticsOf? code).toList := by
  simp only [statisticsAmong, List.filterMap_append]
  congr 1

namespace Monitor

theorem isValidity_priceAlerts (feed : Feed) :
    ∀ alert ∈ feed.priceAlerts, alert.isValidity = true := by
  intro alert halert
  cases feed with
  | statistics sf => cases halert
  | price pf =>
      simp only [Feed.priceAlerts] at halert
      split at halert
      · cases halert
      · rw [List.mem_singleton.mp halert]
        rfl

theorem follows_priceAlerts (code : String) (feed : Feed) :
    feed.priceAlerts.filter (Alert.follows code) = [] := by
  apply List.filter_eq_nil_iff.mpr
  intro alert halert
  simp [Alert.follows, isValidity_priceAlerts feed alert halert]

theorem receive_feedcode (tracker : Tracker) (sf : StatisticsFeed) :
    ∀ alert ∈ (tracker.receive sf).2, alert.feedcode = sf.feedcode ∧ alert.isValidity = false := by
  have hcontinuity : ∀ n, ∀ alert ∈ tracker.continuityAlerts sf n,
      alert.feedcode = sf.feedcode ∧ alert.isValidity = false := by
    intro n alert halert
    unfold Tracker.continuityAlerts at halert
    split at halert
    · rw [List.eq_of_mem_replicate halert]
      exact ⟨rfl, rfl⟩
    · cases halert
  intro alert halert
  unfold Tracker.receive at halert
  dsimp only at halert
  split at halert
  · cases halert
  · split at halert
    · rw [List.mem_singleton.mp halert]
      exact ⟨rfl, rfl⟩
    · split at halert
      · rcases List.mem_append.mp halert with halert | halert
        · exact hcontinuity _ alert halert
        · rw [List.mem_singleton.mp halert]
          exact ⟨rfl, rfl⟩
      · exact hcontinuity _ alert halert

/-- The alerts a feed gives rise to are about its own feedcode. -/
theorem exec_feedcode (tracker : Option Tracker) (sf : StatisticsFeed) :
    ∀ alert ∈ (Tracker.exec tracker sf).2, alert.follows sf.feedcode = true := by
  intro alert halert
  have hboth : alert.feedcode = sf.feedcode ∧ alert.isValidity = false := by
    rcases List.mem_append.mp halert with halert | halert
    · unfold Tracker.invalidAlerts at halert
      split at halert
      · rw [List.mem_singleton.mp halert]
        exact ⟨rfl, rfl⟩
      · cases halert
    · exact receive_feedcode _ sf alert halert
  simp [Alert.follows, hboth]

/-- One feed, for one feedcode: the tracker's own step, or nothing. -/
theorem next_trackers (M : Monitor) (feed : Feed) (code : String) :
    (M.next feed).trackers code =
      (feed.statisticsOf? code).elim (M.trackers code)
        (fun sf => some (Tracker.exec (M.trackers code) sf).1) := by
  cases feed with
  | price pf => rfl
  | statistics sf =>
      by_cases hcode : sf.feedcode = code
      · subst hcode
        simp [Monitor.next, Feed.statisticsOf?]
      · simp [Monitor.next, Feed.statisticsOf?, hcode, Function.update_of_ne (Ne.symm hcode)]

/-- Before the first warning nothing is passed on, and there is nothing to warn
about. -/
theorem reported_warns (M : Monitor) (feed : Feed) :
    (M.reported feed).Sublist (M.recorded feed) ∧
      (M.reported feed).filter Alert.warns = (M.recorded feed).filter Alert.warns := by
  unfold Monitor.reported
  by_cases hw : (M.next feed).warned = true
  · simp [hw]
  · rw [if_neg hw]
    refine ⟨List.nil_sublist _, ?_⟩
    cases feed with
    | price pf => rfl
    | statistics sf =>
        simp only [Monitor.next, Bool.or_eq_true, not_or, List.any_eq_true, not_exists,
          not_and] at hw
        exact (List.filter_eq_nil_iff.mpr hw.2).symm

/-- The alerts of a feed about the sequence of one feedcode. -/
theorem recorded_follows (M : Monitor) (feed : Feed) (code : String) :
    (M.recorded feed).filter (Alert.follows code) =
      (feed.statisticsOf? code).elim [] (fun sf => (Tracker.exec (M.trackers code) sf).2) := by
  cases feed with
  | price pf => rfl
  | statistics sf =>
      have hall := exec_feedcode (M.trackers sf.feedcode) sf
      by_cases hcode : sf.feedcode = code
      · subst hcode
        rw [show Feed.statisticsOf? sf.feedcode (.statistics sf) = some sf from if_pos rfl]
        exact List.filter_eq_self.mpr hall
      · have hnone : (M.recorded (.statistics sf)).filter (Alert.follows code) = [] := by
          apply List.filter_eq_nil_iff.mpr
          intro alert halert
          have hfollows := hall alert halert
          simp only [Alert.follows, Bool.and_eq_true, decide_eq_true_eq] at hfollows ⊢
          rw [hfollows.1]
          exact fun h => hcode h.1
        rw [hnone]
        simp [Feed.statisticsOf?, hcode]

theorem published_follows (M : Monitor) (feed : Feed) (code : String) :
    (M.published feed).filter (Alert.follows code) =
      (M.reported feed).filter (Alert.follows code) := by
  rw [Monitor.published, List.filter_append, follows_priceAlerts, List.append_nil]

/-- A feedcode's tracker is the tracker of its own feeds, and what is published
about their sequence is what that tracker records, except that continuity
alerts may be held back. -/
theorem watch_follows (feeds : List Feed) (code : String) :
    (watch feeds).1.trackers code = (Tracker.track (statisticsAmong code feeds)).1 ∧
      ((watch feeds).2.filter (Alert.follows code)).Sublist
        (Tracker.track (statisticsAmong code feeds)).2 ∧
      ((watch feeds).2.filter Alert.warns).filter (Alert.follows code) =
        (Tracker.track (statisticsAmong code feeds)).2.filter Alert.warns := by
  induction feeds using List.reverseRecOn with
  | nil => exact ⟨rfl, List.Sublist.refl _, rfl⟩
  | append_singleton feeds feed ih =>
      obtain ⟨htracker, hsub, hwarns⟩ := ih
      obtain ⟨hsub', hwarns'⟩ := reported_warns (watch feeds).1 feed
      have hfollows := recorded_follows (watch feeds).1 feed code
      have hcomm : ∀ alerts : List Alert, (alerts.filter Alert.warns).filter (Alert.follows code) =
          (alerts.filter (Alert.follows code)).filter Alert.warns := by
        intro alerts
        rw [List.filter_filter, List.filter_filter]
        simp only [Bool.and_comm]
      have hnew : ((watch feeds).1.published feed).filter (Alert.follows code) |>.Sublist
          ((feed.statisticsOf? code).elim []
            (fun sf => (Tracker.exec ((watch feeds).1.trackers code) sf).2)) := by
        rw [published_follows, ← hfollows]
        exact hsub'.filter _
      have hnewWarns : (((watch feeds).1.published feed).filter Alert.warns).filter
          (Alert.follows code) = ((feed.statisticsOf? code).elim []
            (fun sf => (Tracker.exec ((watch feeds).1.trackers code) sf).2)).filter
              Alert.warns := by
        rw [hcomm, published_follows, ← hcomm, hwarns', hcomm, hfollows]
      rw [watch_concat, statisticsAmong_concat, next_trackers, List.filter_append,
        List.filter_append, List.filter_append]
      rw [htracker] at hnew hnewWarns ⊢
      cases hsf : feed.statisticsOf? code with
      | none =>
          rw [hsf] at hnew hnewWarns
          rw [List.sublist_nil.mp hnew, hnewWarns]
          simp only [Option.elim_none, Option.toList_none, List.append_nil, List.filter_nil]
          exact ⟨trivial, hsub, hwarns⟩
      | some sf =>
          rw [hsf] at hnew hnewWarns
          rw [Option.toList_some, Tracker.track_concat]
          refine ⟨rfl, hsub.append hnew, ?_⟩
          rw [List.filter_append, hwarns, hnewWarns]
          rfl

/-- If there is nothing but warnings, everything is passed on. -/
theorem watch_follows_eq {feeds : List Feed} {code : String}
    (hall : ∀ alert ∈ (Tracker.track (statisticsAmong code feeds)).2, alert.warns = true) :
    (watch feeds).2.filter (Alert.follows code) =
      (Tracker.track (statisticsAmong code feeds)).2 := by
  obtain ⟨_, hsub, hwarns⟩ := watch_follows feeds code
  rw [List.filter_eq_self.mpr hall, List.filter_filter] at hwarns
  have hless : (Tracker.track (statisticsAmong code feeds)).2.length ≤
      ((watch feeds).2.filter (Alert.follows code)).length := by
    rw [← hwarns, ← List.countP_eq_length_filter, ← List.countP_eq_length_filter]
    apply List.countP_mono_left
    intro alert _ hboth
    exact (Bool.and_eq_true_iff.mp hboth).1
  exact hsub.eq_of_length_le hless

theorem watch_prices (feeds : List Feed) :
    (watch feeds).2.filter Alert.isValidity = feeds.flatMap Feed.priceAlerts := by
  induction feeds using List.reverseRecOn with
  | nil => rfl
  | append_singleton feeds feed ih =>
      rw [watch_concat, List.filter_append, ih, List.flatMap_append, List.flatMap_singleton]
      congr 1
      cases feed with
      | price pf =>
          have hpublished : (watch feeds).1.published (.price pf) =
              (Feed.price pf).priceAlerts := by
            simp [Monitor.published, Monitor.reported, Monitor.recorded]
          rw [hpublished]
          exact List.filter_eq_self.mpr (isValidity_priceAlerts _)
      | statistics sf =>
          apply List.filter_eq_nil_iff.mpr
          intro alert halert
          have hmem : alert ∈ (Tracker.exec ((watch feeds).1.trackers sf.feedcode) sf).2 := by
            apply (reported_warns (watch feeds).1 (.statistics sf)).1.subset
            simpa [Monitor.published, Feed.priceAlerts] using halert
          have hfollows := exec_feedcode _ sf alert hmem
          simp only [Alert.follows, Bool.and_eq_true] at hfollows
          simpa using hfollows.2

end Monitor

namespace EventLoop

/-- No alarm about an instrument is lost, doubled, reordered or made up, and
other instruments have no part in it. -/
theorem instrument_alarms_exact {records : List Record} {l : EventLoop}
    (h : Ran mainProcessors records l) (hdone : l.pending = []) (code : String) :
    (l.contextMap.getContext code).map Context.view =
        (Tracker.track (statisticsAmong code (records.filterMap Record.feed))).1 ∧
      (l.produced.filter Alert.warns).filter (Alert.follows code) =
        (Tracker.track (statisticsAmong code (records.filterMap Record.feed))).2.filter
          Alert.warns ∧
      (l.produced.filter (Alert.follows code)).Sublist
        (Tracker.track (statisticsAmong code (records.filterMap Record.feed))).2 ∧
      l.produced.filter Alert.isValidity =
        (records.filterMap Record.feed).flatMap Feed.priceAlerts := by
  obtain ⟨hproduced, htrackers⟩ := h.settled hdone
  obtain ⟨htracker, hsub, hwarns⟩ := Monitor.watch_follows (records.filterMap Record.feed) code
  rw [hproduced]
  exact ⟨(htrackers code).trans htracker, hwarns, hsub, Monitor.watch_prices _⟩

theorem instrument_alarms_exact_mixed :
    ∃ l, run mainProcessors sampleMixed = .ok l ∧
      (l.produced.filter Alert.warns).filter (Alert.follows "rb1000") =
        (Tracker.track [sampleFeed 0 1, sampleFeed 2 3, sampleFeed 1 0]).2.filter Alert.warns ∧
      (l.produced.filter Alert.isValidity).length = 1 := by
  have hcheck : ∃ l, run mainProcessors sampleMixed = .ok l ∧
      (l.produced.filter Alert.isValidity).length = 1 := by
    apply exists_ok_of_check
    decide +kernel
  obtain ⟨l, hrun, hlength⟩ := hcheck
  obtain ⟨hran, _, hpending⟩ := Ran.of_run rfl hrun
  obtain ⟨_, hwarns, _⟩ := instrument_alarms_exact hran hpending "rb1000"
  exact ⟨l, hrun, hwarns, hlength⟩

end EventLoop

end OLog
