import OLog.Lib.Codec
import OLog.Lib.Regex

/-!
The log collector: it reads every line of the logs, lets those through that the
`grep` filter matches, and takes the message type and the detail out of them
with a regular expression. Both expressions are anchored, and a line has no
newline in it, so a match can only start at its beginning.
-/

namespace OLog.FluentBit

open Lib

/-- The tail input: the lines that are complete. -/
def tail (content : String) : List (List Char) := (content.toList.splitOn '\n').dropLast

/-- `^[0-9]{13} \[Info  \] \[DATA_RECORDER\]` -/
def grep : Regex :=
  Regex.ofList [.times 13 Char.isDigit, .literal " [Info  ] [DATA_RECORDER]".toList]

/-- `^(?<log_time>[^ ]+) \[Info\s\s\]\s\[DATA_RECORDER\]\s\[Data\]\s`, then
`(?<MessageType>[^,]+),(?<detail>.+)$` -/
def simpleParser : Regex :=
  Regex.ofList
    [.group "log_time" (.plus (· != ' ')), .literal " [Info".toList, .char isSpace,
      .char isSpace, .literal "]".toList, .char isSpace, .literal "[DATA_RECORDER]".toList,
      .char isSpace, .literal "[Data]".toList, .char isSpace,
      .group "MessageType" (.plus (· != ',')), .char (· == ','),
      .group "detail" (.plus (· != '\n')), .lineEnd]

def capture (m : RegexMatch) (name : String) : String :=
  String.ofList ((m.captures.lookup name).getD [])

/-- The two filters: message type and detail of a line that passes both. -/
def filter (line : List Char) : Option (String × String) := do
  let _ ← grep.find? line
  let m ← simpleParser.find? line
  pure (capture m "MessageType", capture m "detail")

/-- Lines that are ended by newlines, and have none in them, are read as they
were written. -/
theorem tail_ofList {lines : List (List Char)} (h : ∀ line ∈ lines, '\n' ∉ line) :
    ((lines.flatMap (· ++ ['\n'])).splitOn '\n').dropLast = lines := by
  induction lines with
  | nil => rfl
  | cons line lines ih =>
      obtain ⟨hline, hlines⟩ := List.forall_mem_cons.mp h
      rw [List.flatMap_cons, List.append_assoc, List.singleton_append,
        List.splitOn_append_cons_self_of_not_mem hline,
        List.dropLast_cons_of_ne_nil (List.splitOn_ne_nil _ _), ih hlines]

theorem grep_append {time : List Char} (hlength : time.length = 13)
    (hdigits : ∀ c ∈ time, c.isDigit = true) (rest : List Char) :
    grep.find? (time ++ (" [Info  ] [DATA_RECORDER]".toList ++ rest)) = some ⟨[], rest⟩ := by
  have htimes := Regex.run_times_append hdigits (" [Info  ] [DATA_RECORDER]".toList ++ rest)
  have hliteral := Regex.run_literal_append " [Info  ] [DATA_RECORDER]".toList rest
  rw [hlength] at htimes
  unfold Regex.find? grep
  rw [Regex.ofList_cons, Regex.run_seq_of_single htimes, Regex.ofList_cons,
    Regex.run_seq_of_single hliteral]
  rfl

/-- What `grep` lets through begins with thirteen digits and the two tags. -/
theorem eq_of_grep {line : List Char} {m : RegexMatch} (h : grep.find? line = some m) :
    ∃ time rest, line = time ++ (" [Info  ] [DATA_RECORDER]".toList ++ rest) ∧
      time.length = 13 ∧ ∀ c ∈ time, c.isDigit = true := by
  obtain ⟨m₁, hm₁, m₂, hm₂, _⟩ := Regex.mem_run_seq (List.mem_of_mem_head? h)
  obtain ⟨m₃, hm₃, _, _, _⟩ := Regex.mem_run_seq hm₂
  obtain ⟨time, htime, hlength, hdigits⟩ := Regex.mem_run_times hm₁
  exact ⟨time, m₃.rest, by rw [htime, Regex.mem_run_literal hm₃], hlength, hdigits⟩

/-- A line of any other form is stopped. -/
theorem filter_eq_none {line : List Char}
    (h : ∀ time rest, line = time ++ (" [Info  ] [DATA_RECORDER]".toList ++ rest) →
      time.length = 13 → ¬ ∀ c ∈ time, c.isDigit = true) : filter line = none := by
  have hgrep : grep.find? line = none := by
    by_contra hsome
    obtain ⟨m, hm⟩ := Option.ne_none_iff_exists'.mp hsome
    obtain ⟨time, rest, hline, hlength, hdigits⟩ := eq_of_grep hm
    exact h time rest hline hlength hdigits
  rw [filter, hgrep]
  rfl

theorem run_detail {detail : List Char} (hne : detail ≠ [])
    (hnewline : ∀ c ∈ detail, c ≠ '\n') :
    (Regex.ofList [.group "detail" (.plus (· != '\n')), .lineEnd]).run detail =
      [⟨[("detail", detail)], []⟩] := by
  have hrun : (Regex.ofList [.group "detail" (.plus (· != '\n')), .lineEnd]).run (detail ++ []) =
      Regex.after [("detail", detail)] ((Regex.ofList [.lineEnd]).run []) := by
    refine Regex.run_group_plus_seq (by simpa using hnewline) hne (by simp) ?_
    intro c rest hc
    have hother : c ≠ '\n' := by simpa using hc
    apply Regex.run_seq_of_nil
    simp [Regex.run, hother]
  rw [List.append_nil] at hrun
  exact hrun

theorem run_messageType {msgType detail : List Char} (hne : msgType ≠ [])
    (hcomma : ∀ c ∈ msgType, c ≠ ',') (hdetail : detail ≠ [])
    (hnewline : ∀ c ∈ detail, c ≠ '\n') :
    (Regex.ofList [.group "MessageType" (.plus (· != ',')), .char (· == ','),
        .group "detail" (.plus (· != '\n')), .lineEnd]).run (msgType ++ ',' :: detail) =
      [⟨[("MessageType", msgType), ("detail", detail)], []⟩] := by
  have hrun : (Regex.ofList [.char (· == ','), .group "detail" (.plus (· != '\n')),
      .lineEnd]).run (',' :: detail) = _ :=
    Regex.run_ofList_char (beq_self_eq_true ',') detail _
  rw [Regex.ofList_cons, Regex.run_group_plus_seq (by simpa using hcomma) hne (by simp), hrun,
    run_detail hdetail hnewline]
  · rfl
  · intro c rest hc
    have hother : c ≠ ',' := by simpa using hc
    apply Regex.run_seq_of_nil
    simp [hother]

/-- The parser takes a line apart at its first blank and, behind the tags, at
the first comma. -/
theorem simpleParser_append {time msgType detail : List Char} (htime : time ≠ [])
    (hblank : ∀ c ∈ time, c ≠ ' ') (hmsgType : msgType ≠ [])
    (hcomma : ∀ c ∈ msgType, c ≠ ',') (hdetail : detail ≠ [])
    (hnewline : ∀ c ∈ detail, c ≠ '\n') :
    simpleParser.find? (time ++ (" [Info  ] [DATA_RECORDER] [Data] ".toList ++
        (msgType ++ ',' :: detail))) =
      some ⟨[("log_time", time), ("MessageType", msgType), ("detail", detail)], []⟩ := by
  have htags : " [Info  ] [DATA_RECORDER] [Data] ".toList = " [Info".toList ++ (' ' :: ' ' ::
      ("]".toList ++ (' ' :: ("[DATA_RECORDER]".toList ++ (' ' ::
        ("[Data]".toList ++ [' '])))))) := by decide
  have hspace : isSpace ' ' = true := rfl
  rw [htags]
  simp only [List.append_assoc, List.cons_append, List.nil_append]
  unfold Regex.find? simpleParser
  rw [Regex.ofList_cons, Regex.run_group_plus_seq (by simpa using hblank) htime (by simp)]
  · rw [Regex.run_ofList_literal, Regex.run_ofList_char hspace, Regex.run_ofList_char hspace,
      Regex.run_ofList_literal, Regex.run_ofList_char hspace, Regex.run_ofList_literal,
      Regex.run_ofList_char hspace, Regex.run_ofList_literal, Regex.run_ofList_char hspace,
      run_messageType hmsgType hcomma hdetail hnewline]
    rfl
  · intro c rest hc
    have hother : c ≠ ' ' := by simpa using hc
    exact Regex.run_seq_of_nil (Regex.run_literal_cons_ne hother _ _)

theorem filter_append {time msgType detail : List Char} (hlength : time.length = 13)
    (hdigits : ∀ c ∈ time, c.isDigit = true) (hmsgType : msgType ≠ [])
    (hcomma : ∀ c ∈ msgType, c ≠ ',') (hdetail : detail ≠ [])
    (hnewline : ∀ c ∈ detail, c ≠ '\n') :
    filter (time ++ (" [Info  ] [DATA_RECORDER] [Data] ".toList ++
        (msgType ++ ',' :: detail))) = some (String.ofList msgType, String.ofList detail) := by
  have htags : " [Info  ] [DATA_RECORDER] [Data] ".toList =
      " [Info  ] [DATA_RECORDER]".toList ++ " [Data] ".toList := by decide
  have hgrep := grep_append hlength hdigits (" [Data] ".toList ++ (msgType ++ ',' :: detail))
  rw [← List.append_assoc " [Info  ] [DATA_RECORDER]".toList, ← htags] at hgrep
  have hne : time ≠ [] := by
    rintro rfl
    cases hlength
  have hblank : ∀ c ∈ time, c ≠ ' ' := by
    rintro c hc rfl
    cases hdigits _ hc
  have hparser := simpleParser_append hne hblank hmsgType hcomma hdetail hnewline
  unfold filter
  rw [hgrep, hparser]
  rfl

end OLog.FluentBit
