import EntityGraph.Json.Scan
import EntityGraph.Json.Writer
import EntityGraph.Record.Basic

/-! Records as JSON documents. -/

namespace EntityGraph.Emit

/-- The member that carries the type name of a record in an open field. -/
def typeNameKey : String := "__typename"

/-- The members that an unknown record arrived with; a body that is no object has none. -/
def unknownMembers : UnknownBody → List (String × Json)
  | .json text =>
    match Scan.json? (Utf8.encode text) with
    | some (.object members) => members
    | _ => []
  | _ => []

/-- The members before the fields: records in open fields carry their type name. -/
def tag (kind : Kind) (name : String) : List (String × Json) :=
  match kind with
  | .openType _ => [(typeNameKey, .string name)]
  | _ => []

/-- Dangerous fields are left out unless they are asked for. -/
def leavesOut (includeDangerous : Bool) (info : FieldInfo) : Bool :=
  info.dangerous && !includeDangerous

mutual

/-- The document of a value of the given kind. A double that is no number of JSON is null. -/
def value (includeDangerous : Bool) : Value → Kind → Json
  | .bool b, _ => .bool b
  | .int n, _ => .number (.integer n.toInt)
  | .double x, _ => if x.isFinite then .number (.double x) else .null
  | .text s, _ => .string s
  | .enum e, _ => .string e.name
  | .record r, kind => .object (record includeDangerous r (tag kind r.layout.name))
  | .unknown u, _ => .object (Entries.insert typeNameKey (.string u.name) (unknownMembers u.body))
  | .list items, kind => .array (itemDocuments includeDangerous items kind.element)
  | .map entries, kind => .object (entryMembers includeDangerous entries kind.element [])

/-- The members of a record, added to those given. -/
def record (includeDangerous : Bool) : RecordOf Value → List (String × Json) → List (String × Json)
  | ⟨layout, fields⟩, before => fieldMembers includeDangerous fields layout.fields before

/-- The members of the declared fields, added to those given. -/
def fieldMembers (includeDangerous : Bool) :
    List (Field Value) → List FieldInfo → List (String × Json) → List (String × Json)
  | .value v :: fields, info :: infos, before =>
    fieldMembers includeDangerous fields infos
      (if leavesOut includeDangerous info then before
        else Entries.insert info.name (value includeDangerous v info.kind) before)
  | .null :: fields, info :: infos, before =>
    fieldMembers includeDangerous fields infos
      (if leavesOut includeDangerous info then before else Entries.insert info.name .null before)
  | .absent :: fields, _ :: infos, before => fieldMembers includeDangerous fields infos before
  | _, _, before => before

/-- The documents of elements that may be null. -/
def itemDocuments (includeDangerous : Bool) : List (Option Value) → Kind → List Json
  | [], _ => []
  | some v :: rest, kind => value includeDangerous v kind :: itemDocuments includeDangerous rest kind
  | none :: rest, kind => .null :: itemDocuments includeDangerous rest kind

/-- The members of entries whose values may be null, added to those given. -/
def entryMembers (includeDangerous : Bool) :
    List (String × Option Value) → Kind → List (String × Json) → List (String × Json)
  | [], _, before => before
  | (k, some v) :: rest, kind, before =>
    entryMembers includeDangerous rest kind (Entries.insert k (value includeDangerous v kind) before)
  | (k, none) :: rest, kind, before =>
    entryMembers includeDangerous rest kind (Entries.insert k .null before)

end

end EntityGraph.Emit

namespace EntityGraph

/-- The members of a record's document. -/
def RecordOf.jsonMembers (r : Record) (includeDangerous : Bool) : List (String × Json) :=
  Emit.record includeDangerous r []

/-- The document of a record. -/
def RecordOf.toJson (r : Record) (includeDangerous : Bool) : Json :=
  .object (r.jsonMembers includeDangerous)

end EntityGraph
