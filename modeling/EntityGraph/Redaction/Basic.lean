import EntityGraph.Redaction.Mask

/-! Dangerous data hidden and shown again. -/

namespace EntityGraph

namespace Redaction

mutual

/-- Changes the leaves of a value that are dangerous: all of them, or those under dangerous fields. Records of
unknown types stay as they are. -/
def value (leaf : Value → Value) : Value → Bool → Value
  | .record r, all => .record (record leaf r all)
  | .list vs, all => .list (items leaf vs all)
  | .map es, all => .map (entries leaf es all)
  | .unknown u, _ => .unknown u
  | v, all => if all then leaf v else v

/-- Changes the dangerous leaves of a record. Derived fields keep what they hold. -/
def record (leaf : Value → Value) : RecordOf Value → Bool → RecordOf Value
  | ⟨layout, values⟩, all =>
    ⟨layout, if all || layout.dangerousCapable then fields leaf values layout.fields all else values⟩

/-- Changes the dangerous leaves of fields. -/
def fields (leaf : Value → Value) : List (Field Value) → List FieldInfo → Bool → List (Field Value)
  | .value v :: rest, info :: infos, all =>
    (if all || info.dangerous || info.reachesDangerous then .value (value leaf v (all || info.dangerous))
      else .value v) :: fields leaf rest infos all
  | .null :: rest, _ :: infos, all => .null :: fields leaf rest infos all
  | .absent :: rest, _ :: infos, all => .absent :: fields leaf rest infos all
  | values, _, _ => values

/-- Changes the dangerous leaves of the elements of a list. -/
def items (leaf : Value → Value) : List (Option Value) → Bool → List (Option Value)
  | [], _ => []
  | some v :: rest, all => some (value leaf v all) :: items leaf rest all
  | none :: rest, all => none :: items leaf rest all

/-- Changes the dangerous leaves of the entries of a map. -/
def entries (leaf : Value → Value) : List (String × Option Value) → Bool → List (String × Option Value)
  | [], _ => []
  | (k, some v) :: rest, all => (k, some (value leaf v all)) :: entries leaf rest all
  | (k, none) :: rest, all => (k, none) :: entries leaf rest all

end

end Redaction

/-- Hides every leaf under a dangerous field. -/
def RecordOf.redact (r : Record) (m : Mask) : Record :=
  Redaction.record m.redact r false

/-- Shows what was hidden with the same mask. -/
def RecordOf.unredact (r : Record) (m : Mask) : Record :=
  Redaction.record m.unredact r false

end EntityGraph
