import Mathlib.Data.List.Forall2
import OLog.Monitor
import OLog.Written

/-!
The way from the script into the monitor. The collector reads the logs of all
instruments, takes the records out and sends them to the broker; the event loop
consumes them. The lines of one log keep their order, those of different logs
come in any order. What the monitor then has for an instrument are the records
in the instrument's log.
-/

namespace OLog

open Lib

namespace Generator

open FieldKind

/-- A record in the instrument's own log. -/
def Write.record? : Write → Option Record
  | ⟨.own, .record result⟩ => some result
  | _ => none

def ThreadState.records (s : ThreadState) : List Record := s.writes.filterMap Write.record?

/-- Message type and detail of a record. -/
def Record.parts (r : Record) : String × String := (r.messageType, String.ofList r.detail)

/-- What the collector sends for one of a thread's logs. -/
def ThreadState.collected (s : ThreadState) (file : LogFile) : List (String × String) :=
  (FluentBit.tail (s.content file)).filterMap FluentBit.filter

theorem ThreadState.writtenFeeds_eq (s : ThreadState) :
    s.writtenFeeds = s.records.map Record.written := by
  rw [records, List.map_filterMap, writtenFeeds]
  apply List.filterMap_congr
  rintro ⟨file, line⟩ _
  cases file <;> cases line <;> rfl

theorem Write.Expected.filter_body {code : String} {words : String → List Sample} {w : Write}
    (h : w.Expected code (generateRandomData words)) (hcode : Plain code.toList)
    (hassumed : w.line.Assumed) :
    FluentBit.filter w.line.body = w.record?.map Record.parts := by
  rcases h.record_or_stopped hcode with ⟨r, hr, hfile, hlabel⟩ | ⟨hnot, body, hbody, hstopped⟩
  · obtain ⟨file, line⟩ := w
    cases hr
    cases hfile
    have hbody : OneLine (Line.record r).text.toList _ := hlabel.oneLine hcode
    rw [Line.body_of_oneLine hbody, filter_record hlabel hcode hassumed]
    rfl
  · rw [Line.body_of_oneLine hbody, hstopped]
    obtain ⟨file, line⟩ := w
    cases line with
    | record r => exact absurd rfl (hnot r)
    | _ => cases file <;> rfl

section Thread

variable (conf : Conf) (words : String → List Sample) (i : Nat) (inputs : ThreadInputs)

theorem mem_records {r : Record} (h : r ∈ (thread conf words i inputs).records) :
    r.Labelled (feedcodeOf conf i) ∧
      ∃ w ∈ (thread conf words i inputs).writes, w.line = .record r := by
  obtain ⟨w, hw, hr⟩ := List.mem_filterMap.mp h
  have hexpected := (thread_labelled conf words i inputs).writes w hw
  obtain ⟨file, line⟩ := w
  cases file <;> cases line <;> cases hr
  exact ⟨hexpected.2, _, hw, rfl⟩

variable {conf words i inputs}
  (hassumed : ∀ w ∈ (thread conf words i inputs).writes, w.line.Assumed)

include hassumed

/-- The collector finds the records of the instrument's own log, and nothing in
the other one. -/
theorem collected_thread (file : LogFile) :
    (thread conf words i inputs).collected file =
      if file = .own then (thread conf words i inputs).records.map Record.parts else [] := by
  have hcode := plain_feedcodeOf conf i
  have hexpected := (thread_labelled conf words i inputs).writes
  have hlines := ThreadState.tail_content (fun w hw => (hexpected w hw).oneLine hcode) file
  have hall : (thread conf words i inputs).collected file =
      ((thread conf words i inputs).writes.filter (fun w => w.file = file)).filterMap
        (fun w => w.record?.map Record.parts) := by
    rw [ThreadState.collected, hlines, List.filterMap_map]
    apply List.filterMap_congr
    intro w hw
    have hmem := List.mem_of_mem_filter hw
    exact (hexpected w hmem).filter_body hcode (hassumed w hmem)
  rw [hall, List.filterMap_filter]
  split_ifs with hfile
  · rw [ThreadState.records, List.map_filterMap]
    apply List.filterMap_congr
    rintro ⟨other, line⟩ _
    cases other <;> simp [hfile, Write.record?]
  · apply List.filterMap_eq_nil_iff.mpr
    rintro ⟨other, line⟩ _
    cases other <;> cases file <;> simp_all [Write.record?]

end Thread

theorem feedcodeOf_inj {conf : Conf} {i j : Nat} (h : feedcodeOf conf i = feedcodeOf conf j) :
    i = j := by
  have hlists := congrArg String.toList h
  simp only [feedcodeOf, String.toList_append] at hlists
  have hnumbers := showInt_injective (String.toList_injective (List.append_cancel_left hlists))
  omega

end Generator

/-- The record is what the constructor of `MyMessage` makes of the payload. -/
def Record.MadeOf {Value : Type} (reader : JsonReader Value) (beyond : Nat → Char)
    (payload : String) (record : Record) : Prop :=
  ∀ feedAddr, MyMessage.construct id reader beyond .garbage record.type₀ feedAddr record.message
    payload = record.toMessage feedAddr

theorem Record.feed_of_toMessage {record : Record} {feed : Feed} {feedAddr : Nat}
    (h : record.toMessage feedAddr = Incoming.toMessage ⟨record.message, feed⟩ feedAddr) :
    record.feed = some feed := by
  obtain ⟨message, feed?, type₀⟩ := record
  cases feed? with
  | none => cases h
  | some other =>
      have hslot : FeedSlot.object feedAddr other = FeedSlot.object feedAddr feed :=
        congrArg MyMessage.feed h
      exact congrArg some (FeedSlot.object.inj hslot).2

theorem map_eq_map_of_forall₂ {α β γ : Type} {R : α → β → Prop} {f : α → γ} {g : β → γ}
    {as : List α} {bs : List β} (h : List.Forall₂ R as bs)
    (heach : ∀ a ∈ as, ∀ b ∈ bs, R a b → f a = g b) : as.map f = bs.map g := by
  induction h with
  | nil => rfl
  | cons hab _ ih =>
      rw [List.map_cons, List.map_cons, heach _ List.mem_cons_self _ List.mem_cons_self hab,
        ih (fun a ha b hb => heach a (List.mem_cons_of_mem _ ha) b (List.mem_cons_of_mem _ hb))]

/-- A message on its way from a log to the event loop. -/
structure Delivery where
  /-- The instrument and the log that the line is from. -/
  source : Nat × Generator.LogFile
  payload : String
  record : Record

/-- All lines that the collector sends arrive, each once, and those of one log in
their order. -/
structure Arrives {Value : Type} (reader : JsonReader Value) (beyond : Nat → Char)
    (conf : Generator.Conf) (words : String → List Generator.Sample)
    (inputs : Nat → Generator.ThreadInputs) (deliveries : List Delivery) : Prop where
  source : ∀ d ∈ deliveries, d.source.1 < conf.instrumentAmount
  made : ∀ d ∈ deliveries, d.record.MadeOf reader beyond d.payload
  ordered : ∀ i < conf.instrumentAmount, ∀ file,
    List.Forall₂ (fun (d : Delivery) line => reader.Reads d.payload line.1 line.2)
      (deliveries.filter (fun d => d.source = (i, file)))
      ((Generator.thread conf words i (inputs i)).collected file)

/-- The feeds that the event loop gets. -/
def arrivedFeeds (deliveries : List Delivery) : List Feed :=
  deliveries.filterMap (fun d => d.record.feed)

section Arrives

open Generator

variable {Value : Type} {reader : JsonReader Value} {beyond : Nat → Char} {conf : Conf}
  {words : String → List Sample} {inputs : Nat → ThreadInputs} {deliveries : List Delivery}
  (h : Arrives reader beyond conf words inputs deliveries)
  (hassumed : ∀ i < conf.instrumentAmount, ∀ w ∈ (thread conf words i (inputs i)).writes,
    w.line.Assumed)

include h hassumed

/-- A delivered record is read as it was written. -/
theorem Arrives.feed_eq {d : Delivery} (hd : d ∈ deliveries) {i : Nat}
    (hi : i < conf.instrumentAmount) {r : Generator.Record}
    (hr : r ∈ (thread conf words i (inputs i)).records)
    (hreads : reader.Reads d.payload r.parts.1 r.parts.2) : d.record.feed = some r.written := by
  obtain ⟨hlabel, w, hw, hline⟩ := mem_records conf words i (inputs i) hr
  have hgood := hassumed i hi w hw
  rw [hline] at hgood
  have hmade := h.made d hd 0
  rw [Generator.construct_record hlabel (plain_feedcodeOf conf i) hgood reader beyond .garbage
    d.record.type₀ 0 d.record.message hreads] at hmade
  exact Record.feed_of_toMessage hmade.symm

/-- The deliveries from one log. -/
theorem Arrives.feeds_of_log {i : Nat} (hi : i < conf.instrumentAmount) (file : LogFile) :
    (deliveries.filter (fun d => d.source = (i, file))).map (fun d => d.record.feed) =
      if file = .own then
        (thread conf words i (inputs i)).records.map (fun r => some r.written)
      else [] := by
  have hordered := h.ordered i hi file
  rw [collected_thread (hassumed i hi)] at hordered
  split_ifs at hordered ⊢ with hown
  · rw [List.forall₂_map_right_iff] at hordered
    apply map_eq_map_of_forall₂ hordered
    intro d hd r hr hreads
    exact h.feed_eq hassumed (List.mem_of_mem_filter hd) hi hr hreads
  · rw [List.forall₂_nil_right_iff.mp hordered, List.map_nil]

/-- What is delivered carries the feedcode of the instrument whose log it is from. -/
theorem Arrives.mem {d : Delivery} (hd : d ∈ deliveries) :
    d.source.2 = .own ∧ ∃ feed, d.record.feed = some feed ∧
      feed.feedcode = feedcodeOf conf d.source.1 := by
  obtain ⟨⟨i, file⟩, payload, record⟩ := d
  have hi := h.source _ hd
  have hmem : record.feed ∈
      (deliveries.filter (fun d => d.source = (i, file))).map (fun d => d.record.feed) :=
    List.mem_map.mpr ⟨_, List.mem_filter.mpr ⟨hd, by simp⟩, rfl⟩
  rw [h.feeds_of_log hassumed hi] at hmem
  split_ifs at hmem with hown
  · obtain ⟨r, hr, hfeed⟩ := List.mem_map.mp hmem
    refine ⟨hown, r.written, hfeed.symm, ?_⟩
    have hlabel := (mem_records conf words i (inputs i) hr).1
    cases r with
    | statistics timestamp sf => exact hlabel.1
    | price timestamp pf => exact hlabel
  · cases hmem

/-- For each instrument, the feeds that arrive are those in its log. -/
theorem Arrives.feeds {i : Nat} (hi : i < conf.instrumentAmount) :
    (arrivedFeeds deliveries).filter (fun feed => feed.feedcode = feedcodeOf conf i) =
      (thread conf words i (inputs i)).writtenFeeds := by
  have hown : (arrivedFeeds deliveries).filter (fun feed => feed.feedcode = feedcodeOf conf i) =
      (deliveries.filter (fun d => d.source = (i, .own))).filterMap (fun d => d.record.feed) := by
    rw [arrivedFeeds, List.filter_filterMap, List.filterMap_filter]
    apply List.filterMap_congr
    intro d hd
    obtain ⟨hfile, feed, hfeed, hcode⟩ := h.mem hassumed hd
    rw [hfeed, Option.filter_some, hcode]
    by_cases hsame : d.source.1 = i
    · have hsource : d.source = (i, .own) := Prod.ext hsame hfile
      simp [hsource]
    · have hother : ¬ feedcodeOf conf d.source.1 = feedcodeOf conf i :=
        fun heq => hsame (feedcodeOf_inj heq)
      have hsource : ¬ d.source = (i, .own) := fun heq => hsame (congrArg Prod.fst heq)
      simp [hother, hsource]
  have hlog := congrArg (List.filterMap id) (h.feeds_of_log hassumed hi .own)
  rw [if_pos rfl] at hlog
  rw [hown, ThreadState.writtenFeeds_eq]
  simpa [List.filterMap_map] using hlog

end Arrives

end OLog
