import EntityGraph.Formula

/-! Records in the making. -/

namespace EntityGraph

/-- A record whose fields are still being filled in. -/
structure Draft extends SizedRecord

namespace Draft

/-- A draft with every field absent. -/
def new (layout : Layout) : Draft :=
  ⟨⟨layout, List.replicate layout.fields.length .absent⟩, List.length_replicate⟩

/-- A draft with the fields of a record, absent where it has none. -/
def ofRecord (r : Record) : Draft :=
  ⟨⟨r.layout, r.layout.fields.mapIdx fun i _ => r.fields[i]?.getD .absent⟩, List.length_mapIdx⟩

/-- The record with the fields as they are. -/
def raw (d : Draft) : Record :=
  d.toRecordOf

/-- A record with a field for each position comes back from its draft. -/
theorem raw_ofRecord (r : SizedRecord) : (ofRecord r).raw = r := by
  rcases r with ⟨⟨layout, fields⟩, sized⟩
  refine congrArg (RecordOf.mk layout) (List.ext_getElem? fun i => ?_)
  rw [List.getElem?_mapIdx]
  by_cases inside : i < layout.fields.length
  · rw [List.getElem?_eq_getElem inside, List.getElem?_eq_getElem (sized ▸ inside)]
    rfl
  · have outside := Nat.le_of_not_lt inside
    rw [List.getElem?_eq_none outside, List.getElem?_eq_none (sized ▸ outside)]
    rfl

/-- The field of a name. -/
def field (d : Draft) (name : String) : Field Value :=
  d.raw.field name

/-- Writes a position without a check. -/
def put (d : Draft) (i : Nat) (f : Field Value) : Draft :=
  ⟨⟨d.layout, d.fields.set i f⟩, List.length_set.trans d.sized⟩

/-- The kind has room for the field: absent and null always fit. -/
def fits (kind : Kind) : Field Value → Bool
  | .value v => kind.accepts v
  | _ => true

/-- Sets a field of a known name to something that fits. -/
def set? (d : Draft) (name : String) (f : Field Value) : Except SchemaError Draft :=
  match d.layout.indexOf? name with
  | none => .error (.unknownField d.layout.name name)
  | some i =>
    if d.layout.fields[i]?.any fun info => fits info.kind f then .ok (d.put i f)
    else .error (.kindMismatch d.layout.name name)

/-- Sets a field, and leaves the draft as it is if that is not possible. -/
def set (d : Draft) (name : String) (f : Field Value) : Draft :=
  match d.set? name f with
  | .ok d => d
  | .error _ => d

/-- Takes over one declared field: by position from the same layout, checked by name from another. -/
def mergeField (same : Bool) (d : Draft) (entry : (FieldInfo × Field Value) × Nat) : Draft :=
  if entry.1.2.isAbsent then d
  else if same then d.put entry.2 entry.1.2
  else d.set entry.1.1.name entry.1.2

/-- Takes over the declared fields of a record and leaves the others untouched. -/
def merge (d : Draft) (r : Record) : Draft :=
  ((r.layout.fields.zip r.fields).zipIdx).foldl (mergeField (decide (d.layout = r.layout))) d

/-- The finished record, with every pure derivation run. -/
def build (formulas : Formulas) (d : Draft) : Record :=
  d.raw.derive formulas

/-- The record that a reader finished: derivations that it read keep their values. -/
def buildRead (formulas : Formulas) (d : Draft) : Record :=
  d.raw.deriveOffWire formulas

end Draft

/-- A draft of a named type. -/
def Schema.draft (s : Schema) (name : String) : Except SchemaError Draft :=
  match s.type? name with
  | some layout => .ok (Draft.new layout)
  | none => .error (.unknownType name)

end EntityGraph
