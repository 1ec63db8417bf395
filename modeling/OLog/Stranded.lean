import OLog.LiveCounts
import OLog.Recovery

/-!
The price of a late record. When a feed comes after its tick was given up, its
message stays live although nothing waits for it. In every run, in any order of
the two threads' steps, the messages stranded like this are those of the late
records. None is ever deleted, and no position that is committed for its
partition lies behind it: a restart brings back all that was consumed since.
-/

namespace OLog

open Lib World EventLoop DeficiencyProcessor

namespace Monitor

/-- The tick was passed already. -/
def Late (M : Monitor) (sf : StatisticsFeed) : Prop :=
  ∃ tracker ∈ M.trackers sf.feedcode, sf.exchangeTimestamp < tracker.expectTimestamp

instance (M : Monitor) (sf : StatisticsFeed) : Decidable (M.Late sf) := by
  unfold Late
  infer_instance

/-- The late feed of a record, if it has one. -/
def late? (M : Monitor) (record : Record) : Option StatisticsFeed :=
  (record.feed.bind Feed.statistics?).filter (fun sf => M.Late sf)

def after (records : List Record) : Monitor := (watch (records.filterMap Record.feed)).1

end Monitor

/-- The late records of a sequence that comes after `before`. -/
def lateAmong (before : List Record) : List Record → List Record
  | [] => []
  | record :: rest =>
      (if ((Monitor.after before).late? record).isSome then [record] else []) ++
        lateAmong (before ++ [record]) rest

def lateRecords (records : List Record) : List Record := lateAmong [] records

theorem lateAmong_append (before first second : List Record) :
    lateAmong before (first ++ second) =
      lateAmong before first ++ lateAmong (before ++ first) second := by
  induction first generalizing before with
  | nil => simp [lateAmong]
  | cons record first ih =>
      rw [List.cons_append, lateAmong, lateAmong, ih, List.append_assoc, List.append_assoc,
        List.singleton_append]

theorem lateRecords_concat (records : List Record) (record : Record) :
    lateRecords (records ++ [record]) = lateRecords records ++
      (if ((Monitor.after records).late? record).isSome then [record] else []) := by
  rw [lateRecords, lateAmong_append, List.nil_append]
  exact congrArg _ (List.append_nil _)

namespace EventLoop

instance (l : EventLoop) (msg : MyMessage) : Decidable (l.Waits msg) :=
  decidable_of_iff (∃ r ∈ msg.ref?, r ∈ l.queueOf r.feed.feedcode) Iff.rfl

def Strands (l : EventLoop) (msg : MyMessage) : Prop := msg.live ≠ 0 ∧ ¬ l.Waits msg

instance (l : EventLoop) (msg : MyMessage) : Decidable (l.Strands msg) := by
  unfold Strands
  infer_instance

def stranded? (l : EventLoop) (m : Nat) : Option KafkaMessage :=
  ((l.heap.get? m).filter (fun msg => l.Strands msg)).map MyMessage.message

/-- The stranded messages in a partition's queue. -/
def stranded (l : EventLoop) (p : Int) : List KafkaMessage := (l.fifo p).filterMap l.stranded?

section Steps

variable {l l' : EventLoop} {d : DeficiencyProcessor}

theorem Waits.congr (hcontext : l'.contextMap = l.contextMap) (msg : MyMessage) :
    l'.Waits msg ↔ l.Waits msg := by
  unfold Waits queueOf
  rw [hcontext]

theorem stranded?_of_get {m : Nat} {msg : MyMessage} (hmsg : l.heap.get? m = some msg) :
    l.stranded? m = if l.Strands msg then some msg.message else none := by
  unfold stranded?
  rw [hmsg, Option.filter_some]
  split_ifs <;> simp_all

theorem stranded?_congr (hcontext : l'.contextMap = l.contextMap) {m : Nat}
    (hheap : l'.heap.get? m = l.heap.get? m) : l'.stranded? m = l.stranded? m := by
  unfold stranded? Strands
  rw [hheap]
  simp only [Waits.congr hcontext]

theorem stranded_congr (hcontext : l'.contextMap = l.contextMap) (hheap : l'.heap = l.heap)
    (hoffset : l'.offset = l.offset) (p : Int) : l'.stranded p = l.stranded p := by
  unfold stranded fifo
  rw [hoffset]
  apply List.filterMap_congr
  intro m _
  exact stranded?_congr hcontext (by rw [hheap])

/-- A new message is not live yet. -/
theorem stranded_consume (hinv : l.Inv d) (record : Record) (p : Int) :
    (l.consume record).stranded p = l.stranded p := by
  have hold : (l.fifo p).filterMap (l.consume record).stranded? = l.stranded p := by
    apply List.filterMap_congr
    intro m hm
    refine stranded?_congr (show (l.consume record).contextMap = l.contextMap from rfl) ?_
    rw [consume_heap, if_neg]
    rintro rfl
    exact hinv.filed.brk_fresh hinv.owned.wf.below p hm
  have hnew : (l.consume record).stranded? l.heap.brk = none := by
    unfold stranded? Strands
    rw [consume_heap, if_pos rfl]
    simp [(record.toMessage_message (l.heap.brk + 1)).2]
  unfold stranded
  rw [consume_fifo]
  split_ifs
  · rw [List.filterMap_append, hold]
    simp [hnew, stranded]
  · exact hold

/-- What is deleted is not live. -/
theorem StoredOn.stranded (h : StoredOn l l.offset.keys l') (hinv : l.Inv d) (p : Int) :
    l'.stranded p = l.stranded p := by
  have hfreed : (l.freed p).filterMap l.stranded? = [] := by
    apply List.filterMap_eq_nil_iff.mpr
    intro m hm
    obtain ⟨msg, hmsg, -⟩ := hinv.filed.stored p m (l.freed_subset p hm)
    rw [stranded?_of_get hmsg]
    simp [Strands, mem_freed_free hm hmsg]
  have hheld : (l.held p).filterMap l'.stranded? = (l.held p).filterMap l.stranded? := by
    apply List.filterMap_congr
    intro m hm
    apply stranded?_congr h.frame.1
    apply h.kept
    intro p' _ hmem
    by_cases hp : p' = p
    · subst hp
      exact hinv.filed.notMem_freed_of_held hm hmem
    · exact hinv.filed.notMem_freed_of_other (Ne.symm hp) (l.held_subset p hm) hmem
  unfold EventLoop.stranded
  rw [h.fifo_held, hheld, ← l.freed_append_held p, List.filterMap_append, hfreed, List.nil_append]

end Steps

section Executed

variable {l l' : EventLoop} {d : DeficiencyProcessor} {m : Nat} {msg : MyMessage} {r : FeedRef}
  {released : List FeedRef} {t : ExecState} (hdone : Executed (l.execState d) m r released t)

include hdone

theorem queue_executed_iff {r' : FeedRef} (hother : r' ≠ r) (hkept : r' ∉ released)
    (code : String) : r' ∈ t.queueOf code ↔ r' ∈ l.queueOf code := by
  by_cases hcode : code = r.feed.feedcode
  · subst hcode
    have hqueue := hdone.queue
    split_ifs at hqueue
    · rw [hqueue.2]
      rfl
    · have hmem := hqueue.mem_iff (a := r')
      simp only [List.mem_append, List.mem_cons, hother, hkept, or_false, false_or] at hmem
      exact hmem
  · rw [hdone.queueOf_other hcode]
    rfl

variable (howned : (l.execState d).Owned) (hmsg : l.heap.get? m = some msg)
  (href : msg.ref? = some r) (hlive : msg.live = 0) (hheap : l'.heap = t.heap)
  (hcontext : l'.contextMap = t.contextMap)

include howned hmsg href hheap hcontext

/-- Another message is stranded afterwards if it was before: if it waited, it still
does or was released. -/
theorem stranded?_executed_other {a : Nat} (ha : a ≠ m) : l'.stranded? a = l.stranded? a := by
  have hafter : l'.heap.get? a = (l.heap.get? a).map (settle released) := by
    rw [hheap, hdone.heap]
    simp only [ha, if_false]
    rfl
  cases hget : l.heap.get? a with
  | none => simp [stranded?, hafter, hget]
  | some other =>
      have hqueue : ∀ code, l'.queueOf code = t.queueOf code := by
        intro code
        unfold EventLoop.queueOf ExecState.queueOf
        rw [hcontext]
      have hown : ∀ r', other.ref? = some r' → r' ≠ r := by
        rintro r' href' rfl
        exact ha (howned.wf.feed_inj a m other msg r' r' hget hmsg href' href rfl)
      by_cases hgone : other.ref? ∈ released.map some
      · obtain ⟨r', hr', href'⟩ := List.mem_map.mp hgone
        have hwaits : l.Waits other := by
          refine ⟨r', href'.symm, ?_⟩
          have hmem := (hdone.released_subset hr').resolve_left (hown r' href'.symm)
          have hcode := (howned.queued _ r' hmem).1
          rw [hcode]
          exact hmem
        rw [hget, Option.map_some, settle_of_mem href'.symm hr'] at hafter
        rw [stranded?_of_get hafter, stranded?_of_get hget]
        simp [Strands, hwaits]
      · have hsame : settle released other = other := if_neg hgone
        have hwaits : l'.Waits other ↔ l.Waits other := by
          unfold Waits
          apply exists_congr
          intro r'
          apply and_congr_right
          intro href'
          have hkept : r' ∉ released := by
            intro hmem
            exact hgone (by rw [href']; exact List.mem_map_of_mem hmem)
          rw [hqueue]
          exact queue_executed_iff hdone (hown r' href') hkept _
        rw [hget, Option.map_some, hsame] at hafter
        rw [stranded?_of_get hafter, stranded?_of_get hget]
        simp only [Strands, hwaits]

include hlive

/-- The message itself is stranded exactly if its feed is late. -/
theorem stranded?_executed_self :
    l'.stranded? m = if l.Late r.feed then some msg.message else none := by
  have hafter : l'.heap.get? m = some (settle released {msg with live := 1}) := by
    rw [hheap, hdone.heap]
    have hget : (l.execState d).heap.get? m = some msg := hmsg
    rw [hget]
    simp
  have hqueue : l'.queueOf r.feed.feedcode = t.queueOf r.feed.feedcode := by
    unfold EventLoop.queueOf ExecState.queueOf
    rw [hcontext]
  have href₁ : MyMessage.ref? {msg with live := 1} = some r := href
  have hfresh : r ∉ l.queueOf r.feed.feedcode :=
    fun hr => howned.fresh_feed hmsg href hlive hr rfl
  have hspec := hdone.queue
  by_cases hlate : l.Late r.feed
  · rw [if_pos ((late_iff l d r.feed).mpr hlate)] at hspec
    obtain ⟨rfl, hsame⟩ := hspec
    have hwaits : ¬ l'.Waits {msg with live := 1} := by
      rintro ⟨r', href', hr'⟩
      rw [href₁] at href'
      cases href'
      rw [hqueue, hsame] at hr'
      exact hfresh hr'
    rw [settle_nil] at hafter
    rw [stranded?_of_get hafter]
    simp [Strands, hwaits, hlate]
  · rw [if_neg (mt (late_iff l d r.feed).mp hlate)] at hspec
    by_cases hreleased : r ∈ released
    · rw [settle_of_mem href₁ hreleased] at hafter
      rw [stranded?_of_get hafter]
      simp [Strands, hlate]
    · have hmem : r ∈ t.queueOf r.feed.feedcode ++ released :=
        hspec.mem_iff.mpr List.mem_cons_self
      have hwaits : l'.Waits {msg with live := 1} :=
        ⟨r, href₁, by rw [hqueue]; exact (List.mem_append.mp hmem).resolve_right hreleased⟩
      rw [settle_of_notMem href₁ hreleased] at hafter
      rw [stranded?_of_get hafter]
      simp [Strands, hlate, hwaits]

/-- It is the last in its queue. -/
theorem stranded_executed (hfiled : l.Filed) (hoffset : l'.offset = l.offset)
    (hlast : (l.fifo msg.message.partition).getLast? = some m) (p : Int) :
    l'.stranded p = l.stranded p ++
      (if l.Late r.feed ∧ msg.message.partition = p then [msg.message] else []) := by
  have hfifo : l'.fifo p = l.fifo p := by
    unfold fifo
    rw [hoffset]
  have hothers : ∀ queue : List Nat, m ∉ queue →
      queue.filterMap l'.stranded? = queue.filterMap l.stranded? := by
    intro queue hnot
    apply List.filterMap_congr
    intro a ha
    refine stranded?_executed_other hdone howned hmsg href hheap hcontext ?_
    rintro rfl
    exact hnot ha
  have hbefore : l.stranded? m = none := by
    rw [stranded?_of_get hmsg]
    simp [Strands, hlive]
  have hself := stranded?_executed_self hdone howned hmsg href hlive hheap hcontext
  unfold EventLoop.stranded
  rw [hfifo]
  by_cases hp : msg.message.partition = p
  · subst hp
    obtain ⟨front, hfront⟩ := List.getLast?_eq_some_iff.mp hlast
    have hnodup := hfiled.nodup msg.message.partition
    rw [hfront, List.nodup_append] at hnodup
    have hnot : m ∉ front := fun hm => hnodup.2.2 m hm m (List.mem_singleton_self _) rfl
    rw [hfront, List.filterMap_append, List.filterMap_append, hothers front hnot]
    by_cases hlate : l.Late r.feed
    · simp [hself, hbefore, hlate]
    · simp [hself, hbefore, hlate]
  · have hnot : m ∉ l.fifo p := by
      intro hm
      obtain ⟨msg', hmsg', hpartition⟩ := hfiled.stored p m hm
      rw [hmsg] at hmsg'
      cases hmsg'
      exact hp hpartition
    rw [hothers _ hnot]
    simp [hp]

end Executed

/-- The records that the Deficiency processor has seen. -/
def attended (l : EventLoop) (records : List Record) : List Record :=
  if l.pending.filterMap Processor.deficiency? = [] then records else records.dropLast

theorem Shows.late_iff {l : EventLoop} {d : DeficiencyProcessor} {M : Monitor}
    (h : l.Shows d M) (sf : StatisticsFeed) : l.Late sf ↔ M.Late sf := by
  unfold EventLoop.Late Monitor.Late
  rw [← h.trackers]
  cases l.contextMap.getContext sf.feedcode with
  | none => simp
  | some context => simp [Context.view]

/-- The Deficiency processor's turn. -/
theorem Shows.stranded_exec {l : EventLoop} {d : DeficiencyProcessor} {before : List Record}
    (hshows : l.Shows d (Monitor.after before)) (hinv : l.Inv d) {record : Record} {m addr : Nat}
    {msg : MyMessage} {pending : List Processor} (hrun : l.running = some m)
    (hpending : l.pending = .deficiency d :: pending) (hmsg : l.heap.get? m = some msg)
    (hcontent : msg.content = (record.toMessage addr).content) {t : ExecState}
    (hexec : DeficiencyProcessor.exec (l.execState d) m = .ok t) (p : Int) :
    (l.advance t.heap t.contextMap (.deficiency t.self) pending).stranded p = l.stranded p ++
      (if ((Monitor.after before).late? record).isSome ∧ record.message.partition = p then
        [record.message] else []) := by
  have href := ref?_eq_of_content hcontent
  have hmessage : msg.message = record.message :=
    (content_eq hcontent).1.trans (record.toMessage_message addr).1
  rw [record.ref?_toMessage] at href
  unfold Monitor.late?
  cases hsf : record.feed.bind Feed.statistics? with
  | none =>
      rw [hsf] at href
      rw [exec_of_no_ref hmsg href hexec]
      simp only [Option.filter_none, Option.isSome_none, Bool.false_eq_true, false_and, if_false,
        List.append_nil]
      exact stranded_congr rfl rfl rfl p
  | some sf =>
      rw [hsf] at href
      obtain ⟨t', released, hexec', hdone, _⟩ := hinv.execNext_statistics hrun hpending hmsg href
      rw [hexec] at hexec'
      cases hexec'
      obtain ⟨hlast, hlive⟩ := hinv.ready m msg hrun (by simp [hpending]) hmsg
      let after := l.advance t.heap t.contextMap (.deficiency t.self) pending
      have hheap : after.heap = t.heap := rfl
      have hcontext : after.contextMap = t.contextMap := rfl
      have hoffset : after.offset = l.offset := rfl
      have hlate := hshows.late_iff sf
      have hfresh := hlive (by simp [hpending, Processor.deficiency?])
      rw [stranded_executed hdone hinv.owned hmsg href hfresh hheap hcontext hinv.filed hoffset
        hlast p, hmessage]
      simp only [hlate, Option.isSome_filter, Option.any_some, decide_eq_true_eq]

/-- By induction over the steps of both threads; only one of them makes a message
live, and it has just been consumed then. -/
theorem Ran.stranded_eq {records : List Record} {l : EventLoop}
    (h : Ran mainProcessors records l) (p : Int) : l.stranded p =
      ((lateRecords (l.attended records)).map Record.message).filter
        (fun k => k.partition = p) := by
  induction h with
  | start => rfl
  | @consume records l hran record hidle ih =>
      obtain ⟨d, hinv⟩ := hran.reachable.inv rfl
      rw [stranded_consume hinv, ih]
      cases hran.mirrors with
      | between d v hprocessed hpending _ _ =>
          have hbefore : l.attended records = records := by
            simp [attended, hpending]
          have hafter : (l.consume record).attended (records ++ [record]) = records := by
            simp [attended, EventLoop.consume, EventLoop.processors, hprocessed, hpending,
              Processor.deficiency?]
          rw [hbefore, hafter]
      | consumed _ _ _ _ _ hhand =>
          obtain ⟨m, hrun, _⟩ := hhand
          rw [hidle] at hrun
          cases hrun
      | halfway _ _ _ _ _ hhand =>
          obtain ⟨m, hrun, _⟩ := hhand
          rw [hidle] at hrun
          cases hrun
  | @exec records l hran l' hpending hexec ih =>
      cases hran.mirrors with
      | between _ _ _ hnone => exact absurd hnone hpending
      | consumed d v before record hrecords hhand hprocessed hturn hshows _ =>
          obtain ⟨m, hrun, addr, hcontent⟩ := hhand
          obtain ⟨msg, hmsg⟩ := execNext_present hrun hpending hexec
          rw [execNext_deficiency hrun hturn, map_eq_ok] at hexec
          obtain ⟨t, ht, rfl⟩ := hexec
          have hinv := hran.reachable.inv_of_turn rfl hturn
          have hbefore : l.attended records = before := by
            simp [attended, hturn, hrecords, Processor.deficiency?]
          have hafter : (l.advance t.heap t.contextMap (.deficiency t.self)
              [.validity v]).attended records = before ++ [record] := by
            simp [attended, EventLoop.advance, hrecords, Processor.deficiency?]
          rw [Shows.stranded_exec hshows hinv hrun hturn hmsg (hcontent msg hmsg) ht, ih, hbefore,
            hafter, lateRecords_concat, List.map_append, List.filter_append]
          congr 1
          by_cases hlate : ((Monitor.after before).late? record).isSome
          · by_cases hp : record.message.partition = p
            · simp [hlate, hp]
            · simp [hlate, hp]
          · simp [hlate]
      | halfway d v before record hrecords hhand hprocessed hturn _ _ =>
          obtain ⟨m, hrun, _⟩ := hhand
          obtain ⟨msg, hmsg⟩ := execNext_present hrun hpending hexec
          rw [execNext_validity hrun hturn hmsg, map_eq_ok] at hexec
          obtain ⟨v', _, rfl⟩ := hexec
          have hsame : (l.advance l.heap l.contextMap (.validity v') []).attended records =
              l.attended records := by
            simp [attended, EventLoop.advance, hturn, Processor.deficiency?]
          rw [hsame, ← ih]
          exact stranded_congr rfl rfl rfl p
  | poll hran hdone ih => exact ih
  | store hran l' hstore ih =>
      obtain ⟨d, hinv⟩ := hran.reachable.inv rfl
      have hstored := (storeOffset_inv hinv hstore).1
      rw [hstored.stranded hinv, ih]
      unfold attended
      rw [hstored.frame.2.2.1]

theorem mem_queued_of_stranded {l : EventLoop} {p : Int} {k : KafkaMessage}
    (h : k ∈ l.stranded p) : k ∈ l.queued p := by
  obtain ⟨m, hm, hstranded⟩ := List.mem_filterMap.mp h
  obtain ⟨msg, hmsg, rfl⟩ := Option.map_eq_some_iff.mp hstranded
  refine List.mem_filterMap.mpr ⟨m, hm, ?_⟩
  rw [(Option.filter_eq_some_iff.mp hmsg).1]
  rfl

/-- The messages that are live for nothing are those of the late records. In each
partition the committed position is never behind one of them, however many records
follow. -/
theorem late_records_stranded {records : List Record} {l : EventLoop}
    (h : Ran mainProcessors records l) (horder : InSequence records) (p : Int) :
    l.stranded p = ((lateRecords (l.attended records)).map Record.message).filter
        (fun k => k.partition = p) ∧
      ∀ k ∈ l.stranded p, l.Redelivers k := by
  refine ⟨h.stranded_eq p, ?_⟩
  intro k hk
  obtain ⟨consumed, hreach, _⟩ := h.world horder
  obtain ⟨hdurable, _⟩ := World.Reachable.durable rfl hreach
  have hqueued := mem_queued_of_stranded hk
  rw [hdurable.queued_eq, List.mem_filter] at hqueued
  exact (of_decide_eq_true hqueued.2).2

/-- The first tick comes twice. The second of its messages stays, and so does the
one behind it, which is free. -/
theorem late_records_stranded_twice :
    ∃ l, run mainProcessors (sampleEvents [0, 0, 1] ++ [.storeOffset]) = .ok l ∧
      l.stranded 0 = [⟨"feed", 0, 1⟩] ∧ l.queued 0 = [⟨"feed", 0, 1⟩, ⟨"feed", 0, 2⟩] ∧
      l.Redelivers ⟨"feed", 0, 1⟩ := by
  have hcheck : ∃ l, run mainProcessors (sampleEvents [0, 0, 1] ++ [.storeOffset]) = .ok l ∧
      l.stranded 0 = [⟨"feed", 0, 1⟩] ∧ l.queued 0 = [⟨"feed", 0, 1⟩, ⟨"feed", 0, 2⟩] := by
    apply exists_ok_of_check
    decide +kernel
  obtain ⟨l, hrun, hstranded, hqueued⟩ := hcheck
  obtain ⟨hran, -⟩ := Ran.of_run rfl hrun
  have horder : InSequence ((sampleEvents [0, 0, 1] ++ [Event.storeOffset]).filterMap
      Event.record?) := by
    decide
  refine ⟨l, hrun, hstranded, hqueued, (late_records_stranded hran horder 0).2 _ ?_⟩
  rw [hstranded]
  exact List.mem_singleton_self _

end EventLoop

end OLog
