import EntityGraph.Draft
import EntityGraph.Wire.Basic

/-! Records from bytes.

Nesting is bounded: a reader knows how much deeper it may go, and a reader with no room left refuses nested records
and collections. Fields that the layout does not have stand last and are passed over. -/

namespace EntityGraph.Wire.Reader

/-- Reads some bytes by themselves; what it leaves of them is ignored. -/
def within {α : Type} (bytes : List UInt8) (inner : Reader α) : Reader α := fun rest =>
  match inner bytes with
  | .ok a _ => .ok a rest
  | .error e _ => .error e rest

/-- Which of the elements are present. -/
def presence (count : Nat) (hasNull : Bool) : Reader (List Bool) :=
  if hasNull then do
    let bitmap ← take ((count + 7) / 8) "null_bitmap"
    return (unpackBits bitmap).take count
  else return List.replicate count true

/-- The elements that are present, after those already read, which stand latest first. -/
def items (item : Reader Value) : List Bool → List (Option Value) → Reader (List (Option Value))
  | [], before => return before.reverse
  | true :: rest, before => do
    let v ← item
    items item rest (some v :: before)
  | false :: rest, before => items item rest (none :: before)

/-- The entries, each key before its value, added to those already read. -/
def entries (item : Reader Value) :
    List Bool → List (String × Option Value) → Reader (List (String × Option Value))
  | [], before => return before
  | true :: rest, before => do
    let key ← text Limits.textBytes "map_key"
    let v ← item
    entries item rest (Entries.insert key (some v) before)
  | false :: rest, before => do
    let key ← text Limits.textBytes "map_key"
    entries item rest (Entries.insert key none before)

/-- A list of the given size. -/
def list (item : Reader Value) (count : Nat) (hasNull : Bool) : Reader Value := do
  let present ← presence count hasNull
  let vs ← items item present []
  return .list vs

/-- A map of the given size. -/
def map (item : Reader Value) (count : Nat) (hasNull : Bool) : Reader Value := do
  let present ← presence count hasNull
  let es ← entries item present []
  return .map es

/-- A value of an enumeration. Number zero stands for a value that is not listed. -/
def enum (schema : Schema) (name : String) : Reader Value := do
  let id ← varint "enum"
  if id = 0 then do
    let value ← text Limits.textBytes "enum"
    return .enum (EnumValue.dynamic value)
  else
    match schema.enum? name with
    | none => throw (.unknownEnumId name id)
    | some e =>
      if id < UInt32.size then
        match e.nameOf? id.toUInt32 with
        | some value => return .enum ⟨id.toUInt32, value⟩
        | none => throw (.unknownEnumId name id)
      else throw (.unknownEnumId name id)

/-- A collection in a field of its own: its flags say whether it has elements and whether some are null. -/
def fieldCollection (name : String) (empty : Value) (sized : Nat → Bool → Reader Value) (flags : List Bool) :
    Reader (Value × List Bool) := do
  let (nonEmpty, flags) ← bit "non_empty" flags
  if nonEmpty then do
    let (hasNull, flags) ← bit "has_null" flags
    let count ← length Limits.collectionItems name
    let v ← sized count hasNull
    return (v, flags)
  else return (empty, flags)

/-- The value of a field of the given kind, and the flags after its own. -/
def fieldValue (value : Kind → Reader Value) (kind : Kind) (flags : List Bool) : Reader (Value × List Bool) :=
  match kind with
  | .bool => do
    let (b, flags) ← bit "bool" flags
    return (.bool b, flags)
  | .list element => fieldCollection "list" (.list []) (list (value element)) flags
  | .map element => fieldCollection "map" (.map []) (map (value element)) flags
  | kind => do
    let v ← value kind
    return (v, flags)

/-- A field of the given kind, and the flags after its own. -/
def field (value : Kind → Reader Value) (kind : Kind) (flags : List Bool) :
    Reader (Field Value × List Bool) := do
  let (declared, flags) ← bit "declared" flags
  if declared then do
    let (nonNull, flags) ← bit "non_null" flags
    if nonNull then do
      let (v, flags) ← fieldValue value kind flags
      return (.value v, flags)
    else return (.null, flags)
  else return (.absent, flags)

/-- The fields at the given positions, one after the other. -/
def fields (value : Kind → Reader Value) : List Nat → List Bool → Draft → Reader Draft
  | [], _, draft => return draft
  | i :: rest, flags, draft =>
    match draft.layout.fields[i]? with
    | none => fields value rest flags draft
    | some info => do
      let (f, flags) ← field value info.kind flags
      fields value rest flags (draft.put i f)

/-- A record, with the derivations run that are not on the wire. -/
def record (formulas : Formulas) (value : Kind → Reader Value) (layout : Layout) : Reader Record := do
  let count ← length Limits.wireFields "field_count"
  if count = 0 then return (Draft.new layout).buildRead formulas
  else do
    let size ← length Limits.wireFields "flags_len"
    if size * 8 < count then throw (.malformed "flags shorter than field count")
    else do
      let flags ← take size "flags"
      let draft ← fields value (layout.wireOrder.take count) (unpackBits flags) (Draft.new layout)
      return draft.buildRead formulas

/-- A record inside a value, after the number of its bytes. -/
def nested (formulas : Formulas) (deeper : Option (Kind → Reader Value)) (layout : Layout) : Reader Value := do
  let body ← prefixed Limits.snapshotBytes "thing"
  match deeper with
  | none => throw (.tooDeep Limits.depth)
  | some value => do
    let r ← within body (record formulas value layout)
    return .record r

/-- The size of a collection inside a value, and whether it holds nulls. -/
def collectionHead (field : String) : Reader (Nat × Bool) := do
  let count ← length Limits.collectionItems field
  if count = 0 then return (0, false)
  else do
    let hasNull ← bool "has_null"
    return (count, hasNull)

/-- A collection inside a value, if there is room for its elements. -/
def nestedCollection (name : String) (sized : Option (Nat → Bool → Reader Value)) : Reader Value := do
  let (count, hasNull) ← collectionHead name
  match sized with
  | none => throw (.tooDeep Limits.depth)
  | some sized => sized count hasNull

/-- A value of the given kind, with the reader for what it nests, if there is room for that. -/
def valueWith (formulas : Formulas) (schema : Schema) (deeper : Option (Kind → Reader Value)) :
    Kind → Reader Value
  | .bool => Value.bool <$> bool "bool"
  | .int => Value.int <$> signed "int"
  | .double => Value.double <$> double "double"
  | .text => Value.text <$> text Limits.textBytes "text"
  | .enum name => enum schema name
  | .record name =>
    match schema.type? name with
    | none => throw (.unknownType name)
    | some layout => nested formulas deeper layout
  | .openType name => do
    let typeName ← text Limits.textBytes "type_name"
    match schema.member? name typeName with
    | some layout => nested formulas deeper layout
    | none => do
      let body ← prefixed Limits.snapshotBytes "thing"
      return .unknown ⟨typeName, .binary body⟩
  | .list element => nestedCollection "list" (deeper.map fun value => list (value element))
  | .map element => nestedCollection "map" (deeper.map fun value => map (value element))

/-- A value of the given kind that may nest as deep as there is room. -/
def value (formulas : Formulas) (schema : Schema) : Nat → Kind → Reader Value
  | 0 => valueWith formulas schema none
  | room + 1 => valueWith formulas schema (some (value formulas schema room))

/-- A record that is not inside another. -/
def topRecord (formulas : Formulas) (schema : Schema) (layout : Layout) : Reader Record :=
  record formulas (value formulas schema Limits.depth) layout

/-- Runs a reader; what it leaves is ignored. -/
def run {α : Type} (reader : Reader α) (bytes : List UInt8) : Except DecodeError α :=
  match reader bytes with
  | .ok a _ => .ok a
  | .error e _ => .error e

end EntityGraph.Wire.Reader

namespace EntityGraph.Wire

/-- The record of a layout that some bytes stand for. The schema names the types inside it. -/
def decodeAs (formulas : Formulas) (schema : Schema) (layout : Layout) (bytes : List UInt8) :
    Except DecodeError Record :=
  (Reader.topRecord formulas schema layout).run bytes

/-- The record of a named type that some bytes stand for. -/
def decode (formulas : Formulas) (schema : Schema) (name : String) (bytes : List UInt8) :
    Except DecodeError Record :=
  match schema.type? name with
  | some layout => decodeAs formulas schema layout bytes
  | none => .error (.unknownType name)

end EntityGraph.Wire
