import EntityGraph.Number.Double
import EntityGraph.Schema.Basic

/-! Values, three-state fields and records. -/

namespace EntityGraph

/-- A value of an enumeration. The number zero marks a name that the schema does not list. -/
structure EnumValue where
  id : UInt32
  name : String
deriving DecidableEq

/-- A value that keeps an unlisted name. -/
def EnumValue.dynamic (name : String) : EnumValue :=
  ⟨0, name⟩

/-- The name is not listed. -/
def EnumValue.isDynamic (e : EnumValue) : Bool :=
  e.id == 0

/-- The body of a record whose type is not known, as it arrived. -/
inductive UnknownBody where
  | empty
  /-- Object members other than the type name, as JSON text. -/
  | json (text : String)
  /-- The bytes of the record on the wire. -/
  | binary (bytes : List UInt8)
deriving DecidableEq

/-- A record whose type is not known. -/
structure Unknown where
  name : String
  body : UnknownBody
deriving DecidableEq

/-- A field was never fetched, is null, or holds a value. -/
inductive Field (α : Type) where
  | absent
  | null
  | value (a : α)
deriving DecidableEq

namespace Field

/-- Never fetched. -/
def isAbsent : Field α → Bool
  | .absent => true
  | _ => false

/-- Fetched, and null. -/
def isNull : Field α → Bool
  | .null => true
  | _ => false

/-- Null or a value. -/
def isDeclared (f : Field α) : Bool :=
  !f.isAbsent

/-- The value, if there is one. -/
def value? : Field α → Option α
  | .value a => some a
  | _ => none

/-- Null, or the value. -/
def ofOption : Option α → Field α
  | none => .null
  | some a => .value a

end Field

/-- A layout with fields for its positions. -/
structure RecordOf (α : Type) where
  layout : Layout
  fields : List (Field α)

namespace RecordOf

/-- The name of the record's type. -/
def typeName (r : RecordOf α) : String :=
  r.layout.name

/-- The field of a name; a name that the layout does not know is absent. -/
def field (r : RecordOf α) (name : String) : Field α :=
  match r.layout.indexOf? name with
  | none => .absent
  | some i => r.fields[i]?.getD .absent

/-- The fields that are not absent, with their descriptions. -/
def declared (r : RecordOf α) : List (FieldInfo × Field α) :=
  (r.layout.fields.zip r.fields).filter fun e => e.2.isDeclared

/-- No field is declared. -/
def isEmpty (r : RecordOf α) : Bool :=
  r.fields.all Field.isAbsent

end RecordOf

/-- A value that a field can hold. -/
inductive Value where
  | bool (b : Bool)
  | int (n : Int64)
  | double (x : Double)
  | text (s : String)
  | enum (e : EnumValue)
  | record (r : RecordOf Value)
  | unknown (u : Unknown)
  /-- Elements may be null. -/
  | list (items : List (Option Value))
  /-- Entries in key order, whose values may be null. -/
  | map (entries : List (String × Option Value))

/-- A record of values. -/
abbrev Record := RecordOf Value

/-- A record with one field for each position of its layout. -/
structure SizedRecord extends RecordOf Value where
  sized : fields.length = layout.fields.length

instance : Coe SizedRecord Record :=
  ⟨SizedRecord.toRecordOf⟩

/-- A position of the layout is one of the record. -/
theorem SizedRecord.lt_length {r : SizedRecord} (found : r.layout.fields[i]? = some info) : i < r.fields.length := by
  rw [r.sized]
  exact (List.getElem?_eq_some_iff.mp found).1

namespace Value

/-- The truth value of a boolean. -/
def bool? : Value → Option Bool
  | .bool b => some b
  | _ => none

/-- The number of an integer. -/
def int? : Value → Option Int64
  | .int n => some n
  | _ => none

/-- The number of a double. -/
def double? : Value → Option Double
  | .double x => some x
  | _ => none

/-- The text of a text. -/
def text? : Value → Option String
  | .text s => some s
  | _ => none

/-- The value of an enumeration. -/
def enum? : Value → Option EnumValue
  | .enum e => some e
  | _ => none

/-- The record. -/
def record? : Value → Option Record
  | .record r => some r
  | _ => none

/-- The elements of a list. -/
def list? : Value → Option (List (Option Value))
  | .list items => some items
  | _ => none

/-- The entries of a map. -/
def map? : Value → Option (List (String × Option Value))
  | .map entries => some entries
  | _ => none

/-- What a list or map holds, nulls left out. -/
def elements : Value → List Value
  | .list items => items.filterMap id
  | .map entries => entries.filterMap Prod.snd
  | _ => []

end Value

/-- A value has the shape of a kind. Any record is accepted for an open type: readers, which have the schema at
hand, check that it is a member. -/
def Kind.accepts : Kind → Value → Bool
  | .bool, .bool _ => true
  | .int, .int _ => true
  | .double, .double _ => true
  | .text, .text _ => true
  | .enum _, .enum _ => true
  | .openType _, .record _ => true
  | .openType _, .unknown _ => true
  | .record name, .record r => r.typeName == name
  | .list k, .list items => items.all fun item => match item with
    | some v => k.accepts v
    | none => true
  | .map k, .map entries => entries.all fun entry => match entry.2 with
    | some v => k.accepts v
    | none => true
  | _, _ => false

end EntityGraph
