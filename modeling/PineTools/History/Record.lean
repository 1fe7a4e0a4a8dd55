import PineTools.Json.Parser
import PineTools.Json.Printer
import PineTools.Settings.Checked

namespace PineTools.History

structure Record where
  id : Text
  timestamp : Text
  content : Text
  version : ScriptVersion
  valid : Bool
  notes : Option Text
  deriving DecidableEq, Repr, Inhabited

namespace Record

def metadata (r : Record) : Json :=
  .obj
    [("id".toList, .str r.id), ("timestamp".toList, .str r.timestamp),
      ("version".toList, .ofString r.version.name),
     ("valid".toList, .bool r.valid), ("notes".toList, (r.notes.map Json.str).getD .null)]

def metadataText (r : Record) : Text := Json.render .readable r.metadata

/-- The record that metadata and a content make up. Metadata that bring a content of their own make
none. -/
def ofMetadata? (reading : Reading) (metadata : Json) (content : Text) : Option Record :=
  match metadata with
  | .obj fields =>
    if (metadata.field? "content").isSome then none
    else
      let read : Checked Record :=
        Record.mk <$> Read.required fields "id" reading.text
          <*> Read.required fields "timestamp" reading.text
          <*> reading.text (.str content)
          <*> Read.required fields "version" reading.version
          <*> Read.required fields "valid" reading.bool
          <*> Read.field fields "notes" none (Read.nullable reading.text)
      match read with
      | .ok r => some r
      | .bad _ => none
  | _ => none

end Record
end PineTools.History
