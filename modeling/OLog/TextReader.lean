import OLog.Lib.Json
import OLog.Message

/-!
The collector's messages and a reader for them. A message is a JSON object with
the message type and the detail of a record. What the monitor needs of a JSON
library is little: it parses the text and asks for these two members.
-/

namespace OLog

open Lib

/-- A reader that takes strings as they are and refuses other values. -/
def textReader : JsonReader (List (String × Json.Scalar)) where
  parse := Json.parse
  memberAsString fields key :=
    match fields.find? (fun field => field.1 == key) with
    | some (_, .text s) => .ok s
    | _ => .error ()

theorem textReader_parse (payload : String) : textReader.parse payload = Json.parse payload := rfl

/-- The object that is sent for a record. -/
def payloadMembers (parts : String × String) : List Json.Member :=
  [⟨[], "MessageType", [], .text parts.1⟩, ⟨[], "detail", [], .text parts.2⟩]

def payloadOf (parts : String × String) : String :=
  String.ofList (Json.objectText (payloadMembers parts))

theorem textReader_reads {parts : String × String} (htype : Json.Verbatim parts.1)
    (hdetail : Json.Verbatim parts.2) :
    textReader.Reads (payloadOf parts) parts.1 parts.2 := by
  have hframed : ∀ m ∈ payloadMembers parts, m.Framed :=
    List.forall_mem_cons.mpr ⟨Json.Member.framed_mk _ (by decide),
      List.forall_mem_singleton.mpr (Json.Member.framed_mk _ (by decide))⟩
  have hvalues : ∀ m ∈ payloadMembers parts, m.value.Readable :=
    List.forall_mem_cons.mpr ⟨htype, List.forall_mem_singleton.mpr hdetail⟩
  have hne : payloadMembers parts ≠ [] := List.cons_ne_nil _ _
  have hparse : textReader.parse (payloadOf parts) =
      some ((payloadMembers parts).map Json.Member.field) := by
    rw [textReader_parse, payloadOf, Json.parse_objectText_iff hne hframed]
    exact hvalues
  refine ⟨_, hparse, ?_, ?_⟩
  · simp [textReader, payloadMembers, Json.Member.field, Json.Printed.value]
  · simp [textReader, payloadMembers, Json.Member.field, Json.Printed.value]

end OLog
