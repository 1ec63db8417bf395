import OLog.Lib.Json
import OLog.Monitor

/-!
The alerts are handed on as JSON, but they are put together by `sprintf`, which
escapes nothing. An alert can be read back as what it says exactly if its
feedcode needs no escape.
-/

namespace OLog

open Lib Lib.Json

def Alert.log : Alert → String
  | .invalidTurnover .. => "Invalid turnover value or turnover volume"
  | .delay _ _ seconds => "delay " ++ showFixed seconds ++ "s"
  | .monotonicity .. => "Turnover value or turnover volume should be monotonically increase"
  | .miss .. => "miss"
  | .validity _ _ _ _ _ _ log => log

/-- What an alert says. Prices and turnovers lose what is behind six decimals. -/
def Alert.fields (alert : Alert) : List (String × Scalar) :=
  match alert with
  | .invalidTurnover feedcode timestamp volume value
  | .monotonicity feedcode timestamp volume value =>
      [("FEEDCODE", .text feedcode), ("TIMESTAMP", .number timestamp),
        ("TURNOVER_VOLUME", .number volume), ("TURNOVER_VALUE", .number (sixDecimals value)),
        ("LOG", .text alert.log)]
  | .delay feedcode timestamp _ | .miss feedcode timestamp =>
      [("FEEDCODE", .text feedcode), ("TIMESTAMP", .number timestamp), ("LOG", .text alert.log)]
  | .validity feedcode timestamp bidPrice askPrice bidVolume askVolume _ =>
      [("FEEDCODE", .text feedcode), ("TIMESTAMP", .number timestamp),
        ("BID_PRICE", .number (sixDecimals bidPrice)),
        ("ASK_PRICE", .number (sixDecimals askPrice)),
        ("BID_VOLUME", .number bidVolume), ("ASK_VOLUME", .number askVolume),
        ("LOG", .text alert.log)]

/-- The members as they are printed, with the blanks of the five formats. -/
def Alert.members (alert : Alert) : List Json.Member :=
  match alert with
  | .invalidTurnover feedcode timestamp volume value
  | .monotonicity feedcode timestamp volume value =>
      [⟨[], "FEEDCODE", [], .text feedcode⟩, ⟨[' '], "TIMESTAMP", [], .int timestamp⟩,
        ⟨[' '], "TURNOVER_VOLUME", [], .int volume⟩, ⟨[' '], "TURNOVER_VALUE", [], .fixed value⟩,
        ⟨[' '], "LOG", [], .text alert.log⟩]
  | .delay feedcode timestamp _ =>
      [⟨[], "FEEDCODE", [], .text feedcode⟩, ⟨[' '], "TIMESTAMP", [' '], .int timestamp⟩,
        ⟨[' '], "LOG", [], .text alert.log⟩]
  | .miss feedcode timestamp =>
      [⟨[], "FEEDCODE", [], .text feedcode⟩, ⟨[' '], "TIMESTAMP", [], .int timestamp⟩,
        ⟨[' '], "LOG", [], .text alert.log⟩]
  | .validity feedcode timestamp bidPrice askPrice bidVolume askVolume _ =>
      [⟨[], "FEEDCODE", [], .text feedcode⟩, ⟨[' '], "TIMESTAMP", [], .int timestamp⟩,
        ⟨[' '], "BID_PRICE", [], .fixed bidPrice⟩, ⟨[' '], "ASK_PRICE", [], .fixed askPrice⟩,
        ⟨[], "BID_VOLUME", [], .int bidVolume⟩, ⟨[' '], "ASK_VOLUME", [], .int askVolume⟩,
        ⟨[' '], "LOG", [], .text alert.log⟩]

namespace Alert

theorem map_field_members (alert : Alert) : alert.members.map Json.Member.field = alert.fields := by
  cases alert <;> simp only [members, fields, List.map, Json.Member.field, Printed.value]

theorem text_eq (alert : Alert) : alert.text = String.ofList (objectText alert.members) := by
  apply String.toList_injective
  unfold text format turnoverText members log
  cases alert <;>
    simp only [showDouble_false, objectText, membersText, Json.Member.chars, Printed.chars,
      String.toList_append, String.toList_ofList, String.reduceToList, List.cons_append,
      List.nil_append, List.append_assoc]

theorem framed (alert : Alert) : ∀ m ∈ alert.members, m.Framed := by
  unfold members
  cases alert <;> simp only [List.forall_mem_cons] <;> and_intros <;>
    first | exact Json.Member.framed_mk _ (by decide) | exact List.forall_mem_nil _

theorem readable_iff (alert : Alert) : (∀ m ∈ alert.members, m.value.Readable) ↔
    Verbatim alert.feedcode ∧ Verbatim alert.log := by
  unfold members
  cases alert <;> simp [Printed.Readable, feedcode]

/-- Apart from a validity alert, whose log is made up elsewhere, it is only the
feedcode that might need an escape. -/
theorem verbatim_log {alert : Alert} (h : alert.isValidity = false) : Verbatim alert.log := by
  cases alert with
  | delay feedcode timestamp seconds =>
      have hfirst : Verbatim "delay " := by decide
      have hlast : Verbatim "s" := by decide
      exact (hfirst.append (verbatim_showFixed seconds)).append hlast
  | validity => cases h
  | invalidTurnover =>
      exact (by decide : Verbatim "Invalid turnover value or turnover volume")
  | monotonicity =>
      exact (by decide : Verbatim
        "Turnover value or turnover volume should be monotonically increase")
  | miss => exact (by decide : Verbatim "miss")

theorem parse_text_iff {alert : Alert} (hlog : Verbatim alert.log) :
    parse alert.text = some alert.fields ↔ Verbatim alert.feedcode := by
  have hne : alert.members ≠ [] := by
    unfold members
    cases alert <;> exact List.cons_ne_nil _ _
  rw [text_eq, ← map_field_members, parse_objectText_iff hne alert.framed, readable_iff,
    and_iff_left hlog]

end Alert

theorem Feed.verbatim_priceAlerts (feed : Feed) :
    ∀ alert ∈ feed.priceAlerts, Verbatim alert.log := by
  intro alert halert
  cases feed with
  | statistics sf => cases halert
  | price pf =>
      simp only [Feed.priceAlerts] at halert
      split at halert
      · cases halert
      · rw [List.mem_singleton.mp halert]
        change Verbatim (ValidityProcessor.logText pf)
        unfold ValidityProcessor.logText
        split_ifs <;> decide

theorem Monitor.verbatim_watch (feeds : List Feed) :
    ∀ alert ∈ (watch feeds).2, Verbatim alert.log := by
  intro alert halert
  cases hvalidity : alert.isValidity with
  | false => exact Alert.verbatim_log hvalidity
  | true =>
      have hmem := List.mem_filter.mpr ⟨halert, hvalidity⟩
      rw [watch_prices, List.mem_flatMap] at hmem
      obtain ⟨feed, -, hfeed⟩ := hmem
      exact feed.verbatim_priceAlerts alert hfeed

namespace EventLoop

/-- Whatever the loop hands to its producer can be decoded as what it says,
exactly if the feedcode, which is any word that a payload held, needs no escape. -/
theorem alarm_decodes_iff {records : List Record} {l : EventLoop}
    (h : Ran mainProcessors records l) {alert : Alert} (halert : alert ∈ l.produced) :
    parse alert.text = some alert.fields ↔ Verbatim alert.feedcode :=
  Alert.parse_text_iff (Monitor.verbatim_watch _ alert (h.watched.subset halert))

/-- Everything that is published in the run with an early tick and a crossed price
can be decoded. -/
theorem alarm_decodes_iff_mixed :
    ∃ l, run mainProcessors sampleMixed = .ok l ∧ l.produced.length = 2 ∧
      ∀ alert ∈ l.produced, parse alert.text = some alert.fields := by
  have hcheck : ∃ l, run mainProcessors sampleMixed = .ok l ∧ l.produced.length = 2 ∧
      ∀ alert ∈ l.produced, Verbatim alert.feedcode := by
    apply exists_ok_of_check
    decide +kernel
  obtain ⟨l, hrun, hlength, hfeedcodes⟩ := hcheck
  obtain ⟨hran, -⟩ := Ran.of_run rfl hrun
  refine ⟨l, hrun, hlength, fun alert halert => ?_⟩
  exact (alarm_decodes_iff hran halert).mpr (hfeedcodes alert halert)

end EventLoop

end OLog
