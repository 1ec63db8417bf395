import OLog.FluentBit
import OLog.Generator
import OLog.TextReader

/-!
The way of a record from the script into the monitor. The script prints it, the
collector takes the line apart and the monitor reads the detail; the three
agree on the order, the separators and the types of the members. Everything
else that the script writes is stopped by the collector.
-/

namespace OLog.Generator

open Lib

/-- Feedcode and closing price type are never changed. -/
def Record.Labelled (code : String) : Record → Prop
  | .statistics _ sf => sf.feedcode = code ∧ sf.closingPriceType = closingPriceType
  | .price _ pf => pf.feedcode = code

structure Feed.Labelled (code : String) (feed : Feed) : Prop where
  statistics : feed.statisticsFeed.feedcode = code
  closing : feed.statisticsFeed.closingPriceType = closingPriceType
  price : feed.priceFeed.feedcode = code

/-- Records go to the instrument's own log as they are and to the other one only
behind a mark. -/
def Write.Expected (code : String) (randomLogSet : List String) (w : Write) : Prop :=
  match w.line with
  | .record r => w.file = .own ∧ r.Labelled code
  | .noise _ message => w.file = .own ∧ message ∈ randomLogSet
  | .marked _ r => w.file = .error ∧ r.Labelled code
  | .resend _ => w.file = .error

section Writes

variable {code : String} (randomLogSet : List String) {conf : Conf} {feed : Feed}

theorem expected_record {r : Record} (h : r.Labelled code) :
    Write.Expected code randomLogSet ⟨.own, .record r⟩ := ⟨rfl, h⟩

theorem expected_marked {r : Record} (h : r.Labelled code) (mark : Mark) :
    Write.Expected code randomLogSet ⟨.error, .marked mark r⟩ := ⟨rfl, h⟩

theorem writeStatisticsFeed_expected (h : feed.Labelled code) (timestamp : Int) :
    ∀ w ∈ writeStatisticsFeed feed conf timestamp, w.Expected code randomLogSet := by
  unfold writeStatisticsFeed
  extract_lets sf errorTurnover result
  have hresult : result.Labelled code := by
    unfold result
    split_ifs <;> exact ⟨h.statistics, h.closing⟩
  have hrecord := expected_record randomLogSet hresult
  have hmarked := expected_marked randomLogSet hresult
  split_ifs <;> simp [hrecord, hmarked]

theorem writePriceFeed_expected (h : feed.Labelled code) (timestamp : Int) :
    ∀ w ∈ writePriceFeed feed conf timestamp, w.Expected code randomLogSet := by
  unfold writePriceFeed
  extract_lets pf errorBidAsk errorPrice errorVolume result
  have hresult : result.Labelled code := by
    unfold result
    split_ifs <;> exact h.price
  have hrecord := expected_record randomLogSet hresult
  have hmarked := expected_marked randomLogSet hresult
  split_ifs <;> simp [hrecord, hmarked]

theorem getRandomData_expected (timestamp : Int) (raw : Nat) :
    ∀ w ∈ getRandomData randomLogSet timestamp raw, w.Expected code randomLogSet := by
  intro w hw
  obtain ⟨message, hmessage, rfl⟩ := List.mem_map.mp hw
  exact ⟨rfl, List.mem_of_getElem? (Option.mem_toList.mp hmessage)⟩

end Writes

/-- What holds of a thread at the top of its loop. -/
structure ThreadState.Labelled (code : String) (randomLogSet : List String)
    (s : ThreadState) : Prop where
  feed : s.feed.Labelled code
  delayQueue : ∀ delayed ∈ s.delayQueue, delayed.Labelled code
  writes : ∀ w ∈ s.writes, w.Expected code randomLogSet

namespace ThreadState.Labelled

variable {code : String} {randomLogSet : List String} {s : ThreadState}

theorem emit (h : s.Labelled code randomLogSet) (conf : Conf) (inputs : PassInputs) :
    (s.emit conf inputs).Labelled code randomLogSet := by
  have hstatistics : (generateLegalStatisticsFeed s.feed inputs.statistics).Labelled code :=
    ⟨h.feed.statistics, h.feed.closing, h.feed.price⟩
  have hprice : (generateLegalPriceFeed (generateLegalStatisticsFeed s.feed inputs.statistics)
      inputs.price).Labelled code :=
    ⟨hstatistics.statistics, hstatistics.closing, hstatistics.price⟩
  refine ⟨hprice, h.delayQueue, List.forall_mem_append.mpr ⟨h.writes, ?_⟩⟩
  exact List.forall_mem_append.mpr ⟨writeStatisticsFeed_expected _ hstatistics _,
    writePriceFeed_expected _ hprice _⟩

theorem countDrop (h : s.Labelled code randomLogSet) (conf : Conf) :
    (s.countDrop conf).Labelled code randomLogSet :=
  ⟨⟨h.feed.statistics, h.feed.closing, h.feed.price⟩, h.delayQueue, h.writes⟩

theorem countDelay (h : s.Labelled code randomLogSet) (conf : Conf) :
    (s.countDelay conf).Labelled code randomLogSet := by
  unfold ThreadState.countDelay
  split_ifs
  · have hfeed : Feed.Labelled code {s.feed with
        delay := ⟨s.feed.delay.next + conf.delay.interval * 10, s.feed.delay.current + 1⟩} :=
      ⟨h.feed.statistics, h.feed.closing, h.feed.price⟩
    refine ⟨hfeed, List.forall_mem_append.mpr ⟨h.delayQueue, ?_⟩, h.writes⟩
    exact List.forall_mem_singleton.mpr hfeed
  · exact h

theorem resend (h : s.Labelled code randomLogSet) (conf : Conf) (inputs : PassInputs) :
    (s.resend conf inputs).Labelled code randomLogSet := by
  unfold ThreadState.resend
  split_ifs
  · split
    · exact h
    · rename_i delayed delayQueue hqueue
      obtain ⟨hdelayed, hrest⟩ := List.forall_mem_cons.mp (hqueue ▸ h.delayQueue)
      refine ⟨⟨h.feed.statistics, h.feed.closing, h.feed.price⟩, hrest, ?_⟩
      refine List.forall_mem_append.mpr ⟨h.writes, List.forall_mem_cons.mpr ⟨rfl, ?_⟩⟩
      exact List.forall_mem_append.mpr ⟨writeStatisticsFeed_expected _ hdelayed _,
        writePriceFeed_expected _ hdelayed _⟩
  · exact h

theorem countErrors (h : s.Labelled code randomLogSet) (conf : Conf) :
    (s.countErrors conf).Labelled code randomLogSet :=
  ⟨⟨h.feed.statistics, h.feed.closing, h.feed.price⟩, h.delayQueue, h.writes⟩

theorem pass (h : s.Labelled code randomLogSet) (conf : Conf) (nowTime : Int)
    (inputs : PassInputs) :
    (s.pass conf randomLogSet nowTime inputs).Labelled code randomLogSet := by
  unfold ThreadState.pass
  dsimp only
  split_ifs
  · exact ((((h.emit conf inputs).countDrop conf).countDelay conf).resend conf inputs).countErrors
      conf
  · refine ⟨h.feed, h.delayQueue, List.forall_mem_append.mpr ⟨h.writes, ?_⟩⟩
    exact getRandomData_expected _ _ _
  · exact h

/-- Along a whole run, for every clock and all draws. -/
theorem loop (conf : Conf) (endTime : Int) (passes : List PassInputs) (nowTime : Int)
    (h : s.Labelled code randomLogSet) :
    (ThreadState.loop conf randomLogSet endTime passes nowTime s).Labelled code randomLogSet := by
  induction passes generalizing nowTime s with
  | nil => exact h
  | cons inputs rest ih =>
      unfold ThreadState.loop
      split_ifs
      · exact ih _ (h.pass conf nowTime inputs)
      · exact h

end ThreadState.Labelled

def feedcodeOf (conf : Conf) (i : Nat) : String := "rb" ++ showInt (i + conf.feedCodeStartId)

theorem thread_labelled (conf : Conf) (words : String → List Sample) (i : Nat)
    (inputs : ThreadInputs) :
    (thread conf words i inputs).Labelled (feedcodeOf conf i) (generateRandomData words) := by
  apply ThreadState.Labelled.loop
  exact ⟨⟨rfl, rfl, rfl⟩, List.forall_mem_nil _, List.forall_mem_nil _⟩

open FieldKind

/-- A line without the newline at its end. -/
def Line.body (line : Line) : List Char := line.text.toList.dropLast

/-- The text is one line. -/
def OneLine (text body : List Char) : Prop := text = body ++ ['\n'] ∧ '\n' ∉ body

theorem OneLine.append {text body : List Char} (h : OneLine text body) {front : List Char}
    (hfront : '\n' ∉ front) : OneLine (front ++ text) (front ++ body) :=
  ⟨by rw [h.1, List.append_assoc], by simp [hfront, h.2]⟩

theorem newline_notMem_of_plain {text : List Char} (h : Plain text) : '\n' ∉ text :=
  fun hmem => by cases (h.2 _ hmem).1

theorem newline_notMem_showInt (n : Int) : '\n' ∉ (showInt n).toList :=
  newline_notMem_of_plain (plain_showInt n)

theorem newline_notMem_intercalate {pieces : List (List Char)} (h : ∀ piece ∈ pieces, Plain piece) :
    '\n' ∉ [','].intercalate pieces := by
  induction pieces with
  | nil => exact List.not_mem_nil
  | cons piece pieces ih =>
      obtain ⟨hpiece, hpieces⟩ := List.forall_mem_cons.mp h
      obtain ⟨lead, hlead, htext⟩ := intercalate_cons ',' piece pieces
      have hcomma : '\n' ∉ lead := by
        rcases hlead with ⟨rfl, _⟩ | rfl <;> decide
      simp [htext, newline_notMem_of_plain hpiece, hcomma, ih hpieces]

/-- The common form of the two formats. -/
theorem toList_format (time head msgType detail : String)
    (hhead : head.toList =
      " [Info  ] [DATA_RECORDER] [Data] ".toList ++ (msgType.toList ++ [','])) :
    (time ++ head ++ detail ++ "\n").toList = time.toList ++
      (" [Info  ] [DATA_RECORDER] [Data] ".toList ++ (msgType.toList ++ ',' :: detail.toList)) ++
        ['\n'] := by
  have hparts : ∀ a b c d : String,
      (a ++ b ++ c ++ d).toList = a.toList ++ (b.toList ++ c.toList) ++ d.toList := by
    intro a b c d
    simp only [String.toList_append, List.append_assoc]
  rw [hparts, hhead]
  simp only [List.append_assoc, List.singleton_append]
  rfl

namespace Record

def timestamp : Record → Int
  | .statistics timestamp _ => timestamp
  | .price timestamp _ => timestamp

def messageType : Record → String
  | .statistics _ _ => "LIMon_StatisticsFeed"
  | .price _ _ => "LIMon_PriceFeed"

def fields : Record → List String
  | .statistics _ sf => statisticsFields sf
  | .price _ pf => priceFields pf

/-- The part that the monitor reads. -/
def detail (r : Record) : List Char := [','].intercalate (r.fields.map String.toList)

/-- Time, tags, message type and detail. -/
theorem toList_text (r : Record) : r.text.toList = (showInt r.timestamp).toList ++
    (" [Info  ] [DATA_RECORDER] [Data] ".toList ++ (r.messageType.toList ++ ',' :: r.detail)) ++
      ['\n'] := by
  have hdetail : (",".intercalate r.fields).toList = r.detail := String.toList_intercalate
  rw [← hdetail]
  cases r with
  | statistics timestamp sf => exact toList_format _ _ "LIMon_StatisticsFeed" _ (by decide)
  | price timestamp pf => exact toList_format _ _ "LIMon_PriceFeed" _ (by decide)

theorem plain_messageType (r : Record) : Plain r.messageType.toList := by
  cases r with
  | statistics timestamp sf => exact (by decide : Plain "LIMon_StatisticsFeed".toList)
  | price timestamp pf => exact (by decide : Plain "LIMon_PriceFeed".toList)

theorem Labelled.plain {code : String} {r : Record} (h : r.Labelled code)
    (hcode : Plain code.toList) : ∀ piece ∈ r.fields.map String.toList, Plain piece := by
  have hclosing : Plain closingPriceType.toList := by decide
  cases r with
  | statistics timestamp sf =>
      simp [fields, statisticsFields, h.1, h.2, hcode, hclosing, plain_showInt, plain_showFixed]
  | price timestamp pf =>
      have hfeedcode : pf.feedcode = code := h
      simp [fields, priceFields, hfeedcode, hcode, plain_showInt, plain_showFixed]

end Record

theorem Record.Labelled.oneLine {code : String} {r : Record} (h : r.Labelled code)
    (hcode : Plain code.toList) : OneLine r.text.toList ((showInt r.timestamp).toList ++
      (" [Info  ] [DATA_RECORDER] [Data] ".toList ++
        (r.messageType.toList ++ ',' :: r.detail))) := by
  refine ⟨r.toList_text, ?_⟩
  have htags : '\n' ∉ " [Info  ] [DATA_RECORDER] [Data] ".toList := by decide
  have htype := newline_notMem_of_plain r.plain_messageType
  have hdetail : '\n' ∉ r.detail := newline_notMem_intercalate (h.plain hcode)
  simp only [List.mem_append, List.mem_cons, newline_notMem_showInt, htags, htype, hdetail,
    or_false]
  decide

/-- Every noise message names a module right behind its type. -/
def NoiseFront (text : List Char) : Prop :=
  '\n' ∉ text ∧ ∃ rest, text = " [Info  ] [LogModule_".toList ++ rest ∨
    text = " [Debug ] [LogModule_".toList ++ rest

theorem NoiseFront.append {text : List Char} (h : NoiseFront text) {more : List Char}
    (hmore : '\n' ∉ more) : NoiseFront (text ++ more) := by
  obtain ⟨hnewline, rest, hrest⟩ := h
  refine ⟨by simp [hnewline, hmore], rest ++ more, ?_⟩
  exact hrest.imp (fun h => by rw [h, List.append_assoc]) (fun h => by rw [h, List.append_assoc])

theorem newline_notMem_toString (n : Nat) : '\n' ∉ (toString n).toList := by
  have hdigits : (toString n).toList = Nat.toDigits 10 n := Nat.toList_repr
  rw [hdigits]
  intro hmem
  cases isDigit_of_mem_toDigits hmem

/-- The module that `nextLevel` adds. -/
theorem mem_nextLevel {last : List String} {i : Nat} {text : String}
    (h : text ∈ nextLevel last i) : ∃ t ∈ last, ∃ more, '\n' ∉ more ∧
      text.toList = t.toList ++ (" [LogModule_".toList ++ more) := by
  obtain ⟨t, ht, hj⟩ := List.mem_flatMap.mp h
  obtain ⟨j, _, rfl⟩ := List.mem_map.mp hj
  refine ⟨t, ht, (toString i).toList ++ ('_' :: ((toString j).toList ++ [']'])), ?_, ?_⟩
  · simp only [List.mem_append, List.mem_cons, newline_notMem_toString]
    decide
  · have hparts : ∀ a b c d e f : String, (a ++ b ++ c ++ d ++ e ++ f).toList =
        a.toList ++ (b.toList ++ (c.toList ++ (d.toList ++ (e.toList ++ f.toList)))) := by
      intro a b c d e f
      simp only [String.toList_append, List.append_assoc]
    rw [hparts]
    rfl

theorem nextLevel_types {text : String} (h : text ∈ nextLevel messageTypes 0) :
    NoiseFront text.toList := by
  obtain ⟨t, ht, more, hmore, htext⟩ := mem_nextLevel h
  have htypes : '\n' ∉ t.toList ++ " [LogModule_".toList ∧
      (t.toList ++ " [LogModule_".toList = " [Info  ] [LogModule_".toList ∨
        t.toList ++ " [LogModule_".toList = " [Debug ] [LogModule_".toList) := by
    rcases List.mem_cons.mp ht with rfl | ht
    · decide
    · rw [List.mem_singleton.mp ht]
      decide
  rw [htext, ← List.append_assoc]
  refine ⟨by simp only [List.mem_append, htypes.1, hmore, or_self, not_false_iff], more, ?_⟩
  exact htypes.2.imp (congrArg (· ++ more)) (congrArg (· ++ more))

theorem nextLevel_front {last : List String} (hlast : ∀ t ∈ last, NoiseFront t.toList) {i : Nat}
    {text : String} (h : text ∈ nextLevel last i) : NoiseFront text.toList := by
  obtain ⟨t, ht, more, hmore, htext⟩ := mem_nextLevel h
  rw [htext]
  apply (hlast t ht).append
  simp only [List.mem_append, hmore, or_false]
  decide

theorem moduleSets_front : ∀ text ∈ moduleSets.1, NoiseFront text.toList := by
  have hfirst : ∀ text ∈ nextLevel messageTypes 0, NoiseFront text.toList :=
    fun _ => nextLevel_types
  have hsecond : ∀ text ∈ nextLevel (nextLevel messageTypes 0) 1, NoiseFront text.toList :=
    fun _ => nextLevel_front hfirst
  change ∀ text ∈ [] ++ nextLevel messageTypes 0 ++ nextLevel (nextLevel messageTypes 0) 1 ++
    nextLevel (nextLevel (nextLevel messageTypes 0) 1) 2, NoiseFront text.toList
  simp only [List.forall_mem_append]
  exact ⟨⟨⟨List.forall_mem_nil _, hfirst⟩, hsecond⟩, fun _ => nextLevel_front hsecond⟩

theorem newline_notMem_sample (word : Sample) : '\n' ∉ word.chars := by
  intro hmem
  exact absurd (word.subset _ hmem) (by decide)

/-- A drawn message is one line with the module in front. -/
theorem generateRandomData_front (words : String → List Sample) {message : String}
    (h : message ∈ generateRandomData words) :
    ∃ body, message.toList = body ++ ['\n'] ∧ NoiseFront body := by
  obtain ⟨text, htext, rfl⟩ := List.mem_map.mp h
  have hwords : ∀ (ws : List Sample) (t : String), NoiseFront t.toList →
      NoiseFront (ws.foldl (fun r word => r ++ " " ++ String.ofList word.chars) t).toList := by
    intro ws
    induction ws with
    | nil => exact fun t ht => ht
    | cons word ws ih =>
        intro t ht
        apply ih
        rw [String.toList_append, String.toList_append, String.toList_ofList, List.append_assoc]
        apply ht.append
        simp only [List.mem_append, String.toList_ofList, newline_notMem_sample, or_false]
        decide
  exact ⟨_, String.toList_append .., hwords _ _ (moduleSets_front text htext)⟩

theorem Line.body_of_oneLine {line : Line} {body : List Char}
    (h : OneLine line.text.toList body) : line.body = body := by
  rw [Line.body, h.1, List.dropLast_concat]

theorem filter_of_head {c : Char} (hc : c.isDigit = false) (rest : List Char) :
    FluentBit.filter (c :: rest) = none := by
  apply FluentBit.filter_eq_none
  intro time tail hline hlength hdigits
  cases time with
  | nil => cases hlength
  | cons d time =>
      obtain ⟨rfl, _⟩ := List.cons.inj hline
      rw [hdigits _ List.mem_cons_self] at hc
      cases hc

theorem span_blank {time rest : List Char} (htime : ∀ c ∈ time, c ≠ ' ')
    (hrest : rest.head? = some ' ') : (time ++ rest).span (· != ' ') = (time, rest) := by
  apply span_append_stop
  · exact fun c hc => bne_iff_ne.mpr (htime c hc)
  · rw [hrest]
    intro c hc
    cases hc
    rfl

/-- The tag of a noise line is not the one that `grep` looks for. Both come right
behind the first blank. -/
theorem filter_noise {body : List Char} (h : NoiseFront body) (timestamp : Int) :
    FluentBit.filter ((showInt timestamp).toList ++ body) = none := by
  have hfirst : body.head? = some ' ' ∧ body[11]? = some 'L' := by
    obtain ⟨_, rest, rfl | rfl⟩ := h <;> exact ⟨rfl, rfl⟩
  apply FluentBit.filter_eq_none
  intro time rest hline _ hdigits
  have hnoise : ((showInt timestamp).toList ++ body).span (· != ' ') =
      ((showInt timestamp).toList, body) := by
    apply span_blank _ hfirst.1
    rintro c hc rfl
    cases ((plain_showInt timestamp).2 _ hc).1
  have hrecord : (time ++ (" [Info  ] [DATA_RECORDER]".toList ++ rest)).span (· != ' ') =
      (time, " [Info  ] [DATA_RECORDER]".toList ++ rest) := by
    apply span_blank _ rfl
    rintro c hc rfl
    cases hdigits _ hc
  rw [← hline, hnoise] at hrecord
  have hletter := hfirst.2
  rw [(Prod.mk.inj hrecord).2] at hletter
  have hother : (" [Info  ] [DATA_RECORDER]".toList ++ rest)[11]? = some 'D' := rfl
  rw [hother] at hletter
  cases hletter

theorem filter_marked (mark : Mark) (rest : List Char) :
    FluentBit.filter (mark.text.toList ++ rest) = none := by
  cases mark <;> exact filter_of_head rfl _

/-- What is written is a record in the instrument's own log, or a line that the
collector stops. -/
theorem Write.Expected.record_or_stopped {code : String} {words : String → List Sample}
    {w : Write} (h : w.Expected code (generateRandomData words)) (hcode : Plain code.toList) :
    (∃ r, w.line = .record r ∧ w.file = .own ∧ r.Labelled code) ∨
      (∀ r, w.line ≠ .record r) ∧
        ∃ body, OneLine w.line.text.toList body ∧ FluentBit.filter body = none := by
  obtain ⟨file, line⟩ := w
  cases line with
  | record r => exact Or.inl ⟨r, rfl, h⟩
  | noise timestamp message =>
      obtain ⟨body, hbody, hfront⟩ := generateRandomData_front words h.2
      have hone := OneLine.append ⟨hbody, hfront.1⟩ (newline_notMem_showInt timestamp)
      rw [← String.toList_append] at hone
      exact Or.inr ⟨fun r hr => (by cases hr), _, hone, filter_noise hfront timestamp⟩
  | marked mark r =>
      have hmark : '\n' ∉ mark.text.toList := by cases mark <;> decide
      have hone := (h.2.oneLine hcode).append hmark
      rw [← String.toList_append] at hone
      exact Or.inr ⟨fun r hr => (by cases hr), _, hone, filter_marked mark _⟩
  | resend exchangeTimestamp =>
      have hend : OneLine "\n".toList [] := ⟨rfl, List.not_mem_nil⟩
      have hresend : '\n' ∉ "resend:".toList := by decide
      have hone := (hend.append (newline_notMem_showInt exchangeTimestamp)).append hresend
      rw [← List.append_assoc, ← String.toList_append, ← String.toList_append] at hone
      refine Or.inr ⟨fun r hr => (by cases hr), _, hone, ?_⟩
      exact filter_of_head (by decide : Char.isDigit 'r' = false) _

theorem Write.Expected.oneLine {code : String} {words : String → List Sample} {w : Write}
    (h : w.Expected code (generateRandomData words)) (hcode : Plain code.toList) :
    OneLine w.line.text.toList w.line.body := by
  obtain ⟨body, hbody⟩ : ∃ body, OneLine w.line.text.toList body := by
    rcases h.record_or_stopped hcode with ⟨r, hr, _, hlabel⟩ | ⟨_, body, hbody, _⟩
    · rw [hr]
      exact ⟨_, hlabel.oneLine hcode⟩
    · exact ⟨body, hbody⟩
  rw [Line.body_of_oneLine hbody]
  exact hbody

/-- The assumptions about a record: its time in milliseconds has thirteen digits
and its numbers are of the types that the monitor declares. -/
def Record.Assumed : Record → Prop
  | .statistics timestamp sf => (10 ^ 12 ≤ timestamp ∧ timestamp < 10 ^ 13) ∧
      ∀ field ∈ StatisticsFeed.layout, field.kind ≠ .word → field.kind.Fits (field.get sf)
  | .price timestamp pf => (10 ^ 12 ≤ timestamp ∧ timestamp < 10 ^ 13) ∧
      ∀ field ∈ PriceFeed.layout, field.kind ≠ .word → field.kind.Fits (field.get pf)

instance : (r : Record) → Decidable r.Assumed
  | .statistics timestamp sf => inferInstanceAs (Decidable
      ((10 ^ 12 ≤ timestamp ∧ timestamp < 10 ^ 13) ∧ ∀ field ∈ StatisticsFeed.layout,
        field.kind ≠ .word → field.kind.Fits (field.get sf)))
  | .price timestamp pf => inferInstanceAs (Decidable
      ((10 ^ 12 ≤ timestamp ∧ timestamp < 10 ^ 13) ∧ ∀ field ∈ PriceFeed.layout,
        field.kind ≠ .word → field.kind.Fits (field.get pf)))

/-- The values that were written: of a `double`, six decimals. -/
def Record.written : Record → OLog.Feed
  | .statistics _ sf => .statistics {sf with
      timestamp := 0
      highPrice := sixDecimals sf.highPrice
      lowPrice := sixDecimals sf.lowPrice
      openingPrice := sixDecimals sf.openingPrice
      closingPrice := sixDecimals sf.closingPrice
      lastPrice := sixDecimals sf.lastPrice
      turnoverValue := sixDecimals sf.turnoverValue
      settlementPrice := sixDecimals sf.settlementPrice
      upperPriceLimit := sixDecimals sf.upperPriceLimit
      lowerPriceLimit := sixDecimals sf.lowerPriceLimit}
  | .price _ pf => .price {pf with
      timestamp := 0
      bidPrice := sixDecimals pf.bidPrice
      askPrice := sixDecimals pf.askPrice}

/-- The formats of the script list the members in the order in which the monitor
extracts them. -/
theorem statisticsFields_eq (sf : StatisticsFeed) :
    statisticsFields sf = printFields StatisticsFeed.layout sf := rfl

theorem priceFields_eq (pf : PriceFeed) : priceFields pf = printFields PriceFeed.layout pf := rfl

/-- A record that is printed with commas is built again. -/
theorem buildFrom_print {σ : Type} (layout : List (StreamField σ)) (object target : σ)
    (hfits : ∀ field ∈ layout, field.kind.Fits (field.get object)) :
    (buildFrom id layout ([','].intercalate ((printFields layout object).map String.toList))
      target).2 = setPrinted layout object target := by
  have hblanks : ([','].intercalate ((printFields layout object).map String.toList)).map
      (fun c => if c = ',' then ' ' else c) =
        [' '].intercalate ((printFields layout object).map String.toList) := by
    apply map_intercalate rfl
    intro piece hpiece c hc
    obtain ⟨text, htext, rfl⟩ := List.mem_map.mp hpiece
    obtain ⟨field, hfield, rfl⟩ := List.mem_map.mp htext
    exact if_neg ((plain_print field.kind (hfits field hfield)).2 c hc).2
  have hread := extractAll_print layout object target hfits (List.forall_mem_nil _) false
  rw [List.nil_append, ← hblanks] at hread
  exact hread

theorem fits_statistics {sf : StatisticsFeed}
    (hnumbers : ∀ field ∈ StatisticsFeed.layout, field.kind ≠ .word →
      field.kind.Fits (field.get sf))
    (hcode : Plain sf.feedcode.toList) (hclosing : sf.closingPriceType = closingPriceType) :
    ∀ field ∈ StatisticsFeed.layout, field.kind.Fits (field.get sf) := by
  have htype : Plain sf.closingPriceType.toList := by
    rw [hclosing]
    decide
  intro field hfield
  by_cases hkind : field.kind = .word
  · simp only [StatisticsFeed.layout, List.mem_cons, List.not_mem_nil, or_false] at hfield
    rcases hfield with rfl | rfl | rfl | rfl | rfl | rfl | rfl | rfl | rfl | rfl | rfl | rfl |
      rfl | rfl | rfl | rfl | rfl | rfl | rfl
    all_goals first
      | exact hcode
      | exact htype
      | cases hkind
  · exact hnumbers field hfield hkind

theorem fits_price {pf : PriceFeed}
    (hnumbers : ∀ field ∈ PriceFeed.layout, field.kind ≠ .word → field.kind.Fits (field.get pf))
    (hcode : Plain pf.feedcode.toList) :
    ∀ field ∈ PriceFeed.layout, field.kind.Fits (field.get pf) := by
  intro field hfield
  by_cases hkind : field.kind = .word
  · simp only [PriceFeed.layout, List.mem_cons, List.not_mem_nil, or_false] at hfield
    rcases hfield with rfl | rfl | rfl | rfl | rfl | rfl | rfl | rfl | rfl | rfl | rfl | rfl | rfl
    all_goals first
      | exact hcode
      | cases hkind
  · exact hnumbers field hfield hkind

section RoundTrip

variable {code : String} {r : Record}

theorem Record.Assumed.time (h : r.Assumed) : (showInt r.timestamp).toList.length = 13 ∧
    ∀ c ∈ (showInt r.timestamp).toList, c.isDigit = true := by
  have hrange : 10 ^ 12 ≤ r.timestamp ∧ r.timestamp < 10 ^ 13 := by
    cases r with
    | statistics timestamp sf => exact h.1
    | price timestamp pf => exact h.1
  have hnonneg : decide (r.timestamp < 0) = false := decide_eq_false (by omega)
  have hlog : Nat.log 10 r.timestamp.natAbs = 12 :=
    Nat.log_eq_of_pow_le_of_lt_pow (by omega) (by omega)
  constructor
  · rw [String.length_toList, length_showInt, intWidth, numeralWidth, hlog,
      if_neg (by omega : ¬ r.timestamp < 0)]
  · rw [toList_showInt, hnonneg]
    exact fun c => isDigit_of_mem_toDigits

/-- The collector delivers message type and detail of a record. -/
theorem filter_record (hlabel : r.Labelled code) (hcode : Plain code.toList) (h : r.Assumed) :
    FluentBit.filter ((showInt r.timestamp).toList ++
      (" [Info  ] [DATA_RECORDER] [Data] ".toList ++ (r.messageType.toList ++ ',' :: r.detail))) =
        some (r.messageType, String.ofList r.detail) := by
  obtain ⟨hlength, hdigits⟩ := h.time
  have htype := r.plain_messageType
  have hplain := hlabel.plain hcode
  have hdetail : r.detail ≠ [] := by
    obtain ⟨piece, pieces, hpieces⟩ : ∃ piece pieces, r.fields.map String.toList =
        piece :: pieces := by
      cases r <;> exact ⟨_, _, rfl⟩
    obtain ⟨lead, _, htext⟩ := intercalate_cons ',' piece pieces
    rw [Record.detail, hpieces, htext]
    rw [hpieces] at hplain
    exact List.append_ne_nil_of_left_ne_nil (hplain piece List.mem_cons_self).1 _
  have hnewline : ∀ c ∈ r.detail, c ≠ '\n' := by
    rintro c hc rfl
    exact newline_notMem_intercalate hplain hc
  rw [FluentBit.filter_append hlength hdigits htype.1 (fun c hc => (htype.2 c hc).2) hdetail
    hnewline, String.ofList_toList]

/-- The monitor makes of them the feed that was written, of the right class. -/
theorem construct_record (hlabel : r.Labelled code) (hcode : Plain code.toList) (h : r.Assumed)
    {Value : Type} (reader : JsonReader Value) (beyond : Nat → Char) (feed₀ : FeedSlot)
    (type₀ : Feedtype) (feedAddr : Nat) (message : KafkaMessage) {payload : String}
    (hreads : reader.Reads payload r.messageType (String.ofList r.detail)) :
    MyMessage.construct id reader beyond feed₀ type₀ feedAddr message payload =
      Incoming.toMessage ⟨message, r.written⟩ feedAddr := by
  cases r with
  | statistics timestamp sf =>
      obtain ⟨hfeedcode, hclosing⟩ := hlabel
      have hletter : "LIMon_StatisticsFeed".toList[6]? = some 'S' := by decide
      have hbuild := buildFrom_print StatisticsFeed.layout sf {}
        (fits_statistics h.2 (hfeedcode ▸ hcode) hclosing)
      rw [← statisticsFields_eq] at hbuild
      rw [construct_statistics id reader beyond feed₀ type₀ feedAddr message hreads
        (charAt_of_getElem? beyond hletter), StatisticsFeed.build, String.toList_ofList]
      exact congrArg (fun feed => Incoming.toMessage ⟨message, .statistics feed⟩ feedAddr) hbuild
  | price timestamp pf =>
      have hfeedcode : pf.feedcode = code := hlabel
      have hletter : "LIMon_PriceFeed".toList[6]? = some 'P' := by decide
      have hbuild := buildFrom_print PriceFeed.layout pf {}
        (fits_price h.2 (hfeedcode ▸ hcode))
      rw [← priceFields_eq] at hbuild
      rw [construct_price id reader beyond feed₀ type₀ feedAddr message hreads
        (charAt_of_getElem? beyond hletter), PriceFeed.build, String.toList_ofList]
      exact congrArg (fun feed => Incoming.toMessage ⟨message, .price feed⟩ feedAddr) hbuild

end RoundTrip

theorem plain_feedcodeOf (conf : Conf) (i : Nat) : Plain (feedcodeOf conf i).toList := by
  obtain ⟨hne, hletters⟩ : Plain "rb".toList := by decide
  obtain ⟨_, hdigits⟩ := plain_showInt (i + conf.feedCodeStartId)
  rw [feedcodeOf, String.toList_append]
  exact ⟨List.append_ne_nil_of_left_ne_nil hne _, List.forall_mem_append.mpr ⟨hletters, hdigits⟩⟩

/-- A log of one-line texts is read line by line. -/
theorem ThreadState.tail_content {s : ThreadState}
    (h : ∀ w ∈ s.writes, OneLine w.line.text.toList w.line.body) (file : LogFile) :
    FluentBit.tail (s.content file) =
      (s.writes.filter (fun w => w.file = file)).map (fun w => w.line.body) := by
  let written := s.writes.filter (fun w => w.file = file)
  have hlines : ∀ w ∈ written, OneLine w.line.text.toList w.line.body :=
    fun w hw => h w (List.mem_of_mem_filter hw)
  have hcontent : (s.content file).toList =
      (written.map (fun w => w.line.body)).flatMap (· ++ ['\n']) := by
    rw [ThreadState.content, String.toList_join, List.flatMap_map, List.flatMap_map]
    exact List.flatMap_congr (fun w hw => (hlines w hw).1)
  rw [FluentBit.tail, hcontent]
  apply FluentBit.tail_ofList
  intro body hbody
  obtain ⟨w, hw, rfl⟩ := List.mem_map.mp hbody
  exact (hlines w hw).2

def Line.Assumed : Line → Prop
  | .record r => r.Assumed
  | _ => True

/-- For every run: the collector reads each log line by line as it was written.
It lets a line through exactly if that is a record in the instrument's own log,
and of such a line the monitor builds the feed that was written. Numbers of type
`double` are taken as exact, so that reading one rounds nothing. -/
theorem log_lines_round_trip (conf : Conf) (words : String → List Sample) (i : Nat)
    (inputs : ThreadInputs) :
    (∀ file, FluentBit.tail ((thread conf words i inputs).content file) =
      ((thread conf words i inputs).writes.filter (fun w => w.file = file)).map
        (fun w => w.line.body)) ∧
    ∀ w ∈ (thread conf words i inputs).writes, w.line.Assumed →
      ((FluentBit.filter w.line.body).isSome = true ↔
        w.file = .own ∧ ∃ r, w.line = .record r) ∧
      ∀ r, w.line = .record r → ∃ msgType detail,
        FluentBit.filter w.line.body = some (msgType, detail) ∧
        ∀ (Value : Type) (reader : JsonReader Value) (beyond : Nat → Char) (feed₀ : FeedSlot)
          (type₀ : Feedtype) (feedAddr : Nat) (message : KafkaMessage) (payload : String),
          reader.Reads payload msgType detail →
            MyMessage.construct id reader beyond feed₀ type₀ feedAddr message payload =
              Incoming.toMessage ⟨message, r.written⟩ feedAddr := by
  have hcode := plain_feedcodeOf conf i
  have hexpected := (thread_labelled conf words i inputs).writes
  constructor
  · exact ThreadState.tail_content (fun w hw => (hexpected w hw).oneLine hcode)
  · intro w hw hassumed
    rcases (hexpected w hw).record_or_stopped hcode with
      ⟨r, hr, hfile, hlabel⟩ | ⟨hnot, body, hbody, hstopped⟩
    · rw [hr] at hassumed
      have hfilter : FluentBit.filter w.line.body =
          some (r.messageType, String.ofList r.detail) := by
        have hbody : OneLine (Line.record r).text.toList _ := hlabel.oneLine hcode
        rw [hr, Line.body_of_oneLine hbody]
        exact filter_record hlabel hcode hassumed
      refine ⟨iff_of_true (by rw [hfilter]; rfl) ⟨hfile, r, hr⟩, ?_⟩
      intro r' hr'
      cases hr.symm.trans hr'
      refine ⟨_, _, hfilter, ?_⟩
      intro Value reader beyond feed₀ type₀ feedAddr message payload hreads
      exact construct_record hlabel hcode hassumed reader beyond feed₀ type₀ feedAddr message hreads
    · have hfilter : FluentBit.filter w.line.body = none := by
        rw [Line.body_of_oneLine hbody]
        exact hstopped
      refine ⟨iff_of_false (by rw [hfilter]; decide) (fun h => ?_), fun r hr => absurd hr (hnot r)⟩
      obtain ⟨_, r, hr⟩ := h
      exact hnot r hr

def noFault : FaultConf := ⟨0, 0, 0, 0⟩

/-- One instrument, whose first turnover is falsified. -/
def sampleConf : Conf :=
  ⟨1, 3, true, 1000, 240, noFault, noFault, 120, ⟨1000, 1, 1, 0⟩, noFault, noFault, noFault⟩

/-- A single pass, soon after the feed was initialised. -/
def sampleInputs : ThreadInputs :=
  ⟨⟨1600000000000, 1 / 2, 3, 1 / 2, 4, 1 / 2, 5⟩, 1600000000700,
    [⟨⟨1600000000700, 1 / 2, 3, 5, 7⟩, 1600000000701, ⟨1600000000701, 1 / 3, 3, 1 / 7, 4, 5, 7⟩,
      1600000000702, 0, 0, 0, 0, 1600000000705⟩]⟩

/-- The prices of the pass, with six decimals. -/
def samplePrice : PriceFeed where
  feedcode := "rb1000"
  instrumentId := 2306359659839382000
  bidPrice := 4979207500 / 10 ^ 6
  bidVolume := 4
  askPrice := 5019785893 / 10 ^ 6
  askVolume := 5
  streamId := 5
  eventTime := 1600000000701000007
  exchangeTimestamp := 1600000000500000000

/-- The record with these prices, as the script has them. -/
def sampleRecord : Record := .price 1600000000702 {samplePrice with askPrice := 28110801 / 5600}

/-- The pass writes a line that is delivered, and the monitor builds its feed. -/
theorem log_lines_round_trip_pass :
    ∃ w ∈ (thread sampleConf (fun _ => []) 0 sampleInputs).writes, ∃ parts,
      FluentBit.filter w.line.body = some parts ∧
      MyMessage.construct id textReader (fun _ => ' ') .garbage .none 1 ⟨"feed", 0, 0⟩
          (payloadOf parts) =
        Incoming.toMessage ⟨⟨"feed", 0, 0⟩, .price samplePrice⟩ 1 := by
  have hmem : (⟨.own, .record sampleRecord⟩ : Write) ∈
      (thread sampleConf (fun _ => []) 0 sampleInputs).writes := by decide +kernel
  have hassumed : sampleRecord.Assumed := by decide +kernel
  have hwritten : sampleRecord.written = .price samplePrice := by decide +kernel
  have hverbatim : ∀ parts ∈ FluentBit.filter (Line.record sampleRecord).body,
      Json.Verbatim parts.1 ∧ Json.Verbatim parts.2 := by decide +kernel
  have hline := (log_lines_round_trip sampleConf (fun _ => []) 0 sampleInputs).2 _ hmem hassumed
  obtain ⟨msgType, detail, hfilter, hbuilt⟩ := hline.2 _ rfl
  obtain ⟨htype, hdetail⟩ := hverbatim (msgType, detail) hfilter
  refine ⟨_, hmem, (msgType, detail), hfilter, ?_⟩
  rw [← hwritten]
  exact hbuilt _ textReader _ _ _ _ _ _ (textReader_reads htype hdetail)

end OLog.Generator
