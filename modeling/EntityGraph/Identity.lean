import EntityGraph.Bytes.Hex
import EntityGraph.Bytes.Sha256
import EntityGraph.Json.Emit

/-! What identifies a record: its identifying fields, and a hash of them. -/

namespace EntityGraph

namespace Identity

mutual

/-- Replaces every record in a value by its identity. -/
def ofValue : Value → Value
  | .record r => .record (ofRecord r)
  | .list items => .list (ofItems items)
  | .map entries => .map (ofEntries entries)
  | v => v

/-- The identity of a record: the identifying fields, or all of them if there are none, with the records in them
replaced by their identities. Derivations are not run again. -/
def ofRecord : RecordOf Value → RecordOf Value
  | ⟨layout, fields⟩ => ⟨layout, ofFields layout.identifiable fields layout.fields⟩

/-- Keeps the fields that count and drops the others. -/
def ofFields (identifiable : Bool) : List (Field Value) → List FieldInfo → List (Field Value)
  | .value v :: fields, info :: infos =>
    (if identifiable && !info.identifying then .absent else .value (ofValue v)) ::
      ofFields identifiable fields infos
  | .null :: fields, info :: infos =>
    (if identifiable && !info.identifying then .absent else .null) ::
      ofFields identifiable fields infos
  | .absent :: fields, _ :: infos => .absent :: ofFields identifiable fields infos
  | _, _ => []

/-- Replaces the records in the elements of a list. -/
def ofItems : List (Option Value) → List (Option Value)
  | [] => []
  | some v :: rest => some (ofValue v) :: ofItems rest
  | none :: rest => none :: ofItems rest

/-- Replaces the records in the entries of a map. -/
def ofEntries : List (String × Option Value) → List (String × Option Value)
  | [] => []
  | (k, some v) :: rest => (k, some (ofValue v)) :: ofEntries rest
  | (k, none) :: rest => (k, none) :: ofEntries rest

end

end Identity

/-- The hash that an entity is known by. -/
structure Key where
  bytes : List UInt8
deriving DecidableEq

/-- The hash in hexadecimal digits. -/
def Key.hex (k : Key) : String :=
  Hex.encode k.bytes

/-- A text that does not give the hash away. -/
def Key.display (_ : Key) : String :=
  "Idkey(..)"

namespace RecordOf

/-- The identity of a record. -/
def identity (r : Record) : Record :=
  Identity.ofRecord r

/-- The text that is hashed: the type name and the canonical document of the identity. -/
def identityText (r : Record) : String :=
  r.typeName ++ (r.identity.toJson true).canonical

/-- The key of a record. -/
def key (r : Record) : Key :=
  ⟨Sha256.hash (Utf8.encode r.identityText)⟩

end RecordOf

end EntityGraph
