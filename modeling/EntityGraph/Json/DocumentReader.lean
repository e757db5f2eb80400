import EntityGraph.Draft
import EntityGraph.Json.Error
import EntityGraph.Limits

/-! Records read from JSON documents. -/

namespace EntityGraph.DocumentReader

/-- The field being read, for error messages. -/
structure Site where
  type : String
  field : String

/-- The value at the site is not of the kind. -/
def Site.invalid (site : Site) (kind : Kind) : JsonError :=
  .invalidField site.type site.field kind.describe

/-- The value of a name: a listed one, or one that keeps the name. -/
def enumValue (schema : Schema) (enumName name : String) : EnumValue :=
  match (schema.enum? enumName).bind fun e => e.idOf? name with
  | some id => ⟨id, name⟩
  | none => .dynamic name

/-- The number as a value of the kind. -/
def number (site : Site) (kind : Kind) (n : Number) : Except JsonError Value :=
  match kind with
  | .int =>
    match n.int64? with
    | some i => .ok (.int i)
    | none => .error (site.invalid kind)
  | .double => .ok (.double n.toDouble)
  | _ => .error (site.invalid kind)

/-- The string as a value of the kind. -/
def string (schema : Schema) (site : Site) (kind : Kind) (s : String) : Except JsonError Value :=
  match kind with
  | .text => .ok (.text s)
  | .enum name => .ok (.enum (enumValue schema name s))
  | _ => .error (site.invalid kind)

/-- The record of a type that the schema here does not know, with its members kept as text. -/
def unknown (name : String) (members : List (String × Json)) : Value :=
  let rest := Entries.erase Emit.typeNameKey members
  .unknown ⟨name, if rest.isEmpty then .empty else .json (Json.object rest).render⟩

/-- An empty draft for a record at this depth. -/
def start (layout : Layout) (depth : Nat) : Except JsonError Draft :=
  if Limits.depth < depth then .error (.tooDeep Limits.depth) else .ok (Draft.new layout)

mutual

/-- A document as a value of the kind; null is none. -/
def value (formulas : Formulas) (schema : Schema) :
    Json → Site → Kind → Nat → Except JsonError (Option Value)
  | .null, _, _, _ => .ok none
  | .bool b, site, kind, _ =>
    match kind with
    | .bool => .ok (some (.bool b))
    | _ => .error (site.invalid kind)
  | .number n, site, kind, _ => (number site kind n).map some
  | .string s, site, kind, _ => (string schema site kind s).map some
  | .array js, site, kind, depth =>
    match kind with
    | .list element =>
      if Limits.collectionItems < js.length then .error (site.invalid kind)
      else do
        let vs ← items formulas schema js site element (depth + 1)
        return some (.list vs)
    | _ => .error (site.invalid kind)
  | .object members, site, kind, depth =>
    match kind with
    | .record name =>
      match schema.type? name with
      | none => .error (.unknownType name)
      | some layout => do
        let empty ← start layout (depth + 1)
        let draft ← fields formulas schema members (depth + 1) empty
        return some (.record (draft.buildRead formulas))
    | .openType name =>
      match Entries.find? Emit.typeNameKey members with
      | some (.string typeName) =>
        match schema.member? name typeName with
        | none => .ok (some (unknown typeName members))
        | some layout => do
          let empty ← start layout (depth + 1)
          let draft ← fields formulas schema members (depth + 1) empty
          return some (.record (draft.buildRead formulas))
      | _ => .error .missingTypeName
    | .map element =>
      if Limits.collectionItems < members.length then .error (site.invalid kind)
      else do
        let es ← entries formulas schema members site element (depth + 1) []
        return some (.map es)
    | _ => .error (site.invalid kind)

/-- The elements of an array. -/
def items (formulas : Formulas) (schema : Schema) :
    List Json → Site → Kind → Nat → Except JsonError (List (Option Value))
  | [], _, _, _ => .ok []
  | j :: rest, site, kind, depth => do
    let v ← value formulas schema j site kind depth
    let vs ← items formulas schema rest site kind depth
    return v :: vs

/-- The members of an object as entries of a map, added to those given. -/
def entries (formulas : Formulas) (schema : Schema) :
    List (String × Json) → Site → Kind → Nat → List (String × Option Value) →
      Except JsonError (List (String × Option Value))
  | [], _, _, _, before => .ok before
  | (k, j) :: rest, site, kind, depth, before => do
    let v ← value formulas schema j site kind depth
    entries formulas schema rest site kind depth (Entries.insert k v before)

/-- The members of an object as fields of a draft; keys that the layout does not know are passed over. -/
def fields (formulas : Formulas) (schema : Schema) :
    List (String × Json) → Nat → Draft → Except JsonError Draft
  | [], _, draft => .ok draft
  | (k, j) :: rest, depth, draft =>
    match draft.layout.indexOf? k, draft.layout.field? k with
    | some i, some info => do
      let v ← value formulas schema j ⟨draft.layout.name, info.name⟩ info.kind depth
      fields formulas schema rest depth (draft.put i (.ofOption v))
    | _, _ => fields formulas schema rest depth draft

end

/-- The members of an object as a record of the layout. -/
def record (formulas : Formulas) (schema : Schema) (layout : Layout) (members : List (String × Json)) :
    Except JsonError Record := do
  let empty ← start layout 0
  let draft ← fields formulas schema members 0 empty
  return draft.buildRead formulas

end EntityGraph.DocumentReader

namespace EntityGraph

/-- The record of a named type that a document describes. -/
def Json.toRecord (formulas : Formulas) (schema : Schema) (typeName : String) (j : Json) :
    Except JsonError Record :=
  match schema.type? typeName with
  | none => .error (.unknownType typeName)
  | some layout =>
    match j with
    | .object members => DocumentReader.record formulas schema layout members
    | other => .error (.unexpectedToken "object" other.describe)

end EntityGraph
