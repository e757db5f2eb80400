import EntityGraph.Record.Basic

/-! Three ways to compare records. -/

namespace EntityGraph

/-- What a comparison looks at. -/
inductive Comparison where
  /-- The identifying fields; all fields of a type that has none. -/
  | identity
  /-- All fields, with absent and null alike. -/
  | state
  /-- The fields that both records declare. -/
  | declared
deriving DecidableEq

namespace Comparison

/-- Whether the comparison passes over a field of the layout. -/
def skips (mode : Comparison) (layout : Layout) (info : FieldInfo) : Bool :=
  mode == .identity && layout.identifiable && !info.identifying

end Comparison

mutual

/-- Compares two values. Doubles are compared by their bits, unknown records by their name. -/
def Value.equals (mode : Comparison) : Value → Value → Bool
  | .bool a, .bool b => a == b
  | .int a, .int b => a == b
  | .double a, .double b => a == b
  | .text a, .text b => a == b
  | .enum a, .enum b => a == b
  | .record a, .record b => recordEquals mode a b
  | .unknown a, .unknown b => a.name == b.name
  | .list as, .list bs => itemsEqual mode as bs
  | .map as, .map bs => entriesEqual mode as bs
  | _, _ => false
termination_by structural v => v

/-- Compares two records of one type name. Each field meets the other record's field of the same name. -/
def recordEquals (mode : Comparison) : RecordOf Value → RecordOf Value → Bool
  | ⟨layout, fields⟩, other =>
    layout.name == other.layout.name && fieldsEqual mode layout fields layout.fields other
termination_by structural r => r

/-- Compares the remaining fields of a layout with those of another record. -/
def fieldsEqual (mode : Comparison) (layout : Layout) :
    List (Field Value) → List FieldInfo → RecordOf Value → Bool
  | .value v :: fields, info :: infos, other =>
    (mode.skips layout info || match other.field info.name with
      | .value w => v.equals mode w
      | .null => false
      | .absent => mode == .declared) && fieldsEqual mode layout fields infos other
  | .null :: fields, info :: infos, other =>
    (mode.skips layout info || match other.field info.name with
      | .value _ => false
      | _ => true) && fieldsEqual mode layout fields infos other
  | .absent :: fields, info :: infos, other =>
    (mode.skips layout info || mode == .declared || match other.field info.name with
      | .value _ => false
      | _ => true) && fieldsEqual mode layout fields infos other
  | _, _, _ => true
termination_by structural fields => fields

/-- Compares lists position by position. -/
def itemsEqual (mode : Comparison) : List (Option Value) → List (Option Value) → Bool
  | [], [] => true
  | some v :: rest, some w :: others => v.equals mode w && itemsEqual mode rest others
  | none :: rest, none :: others => itemsEqual mode rest others
  | _, _ => false
termination_by structural items => items

/-- Compares maps entry by entry. -/
def entriesEqual (mode : Comparison) :
    List (String × Option Value) → List (String × Option Value) → Bool
  | [], [] => true
  | (k, some v) :: rest, (l, some w) :: others =>
    k == l && v.equals mode w && entriesEqual mode rest others
  | (k, none) :: rest, (l, none) :: others => k == l && entriesEqual mode rest others
  | _, _ => false
termination_by structural entries => entries

end

/-- Compares two records. -/
def RecordOf.equals (mode : Comparison) (a b : Record) : Bool :=
  recordEquals mode a b

/-- Compares two fields with absent and null alike. -/
def Field.equals (mode : Comparison) (a b : Field Value) : Bool :=
  match a.value?, b.value? with
  | none, none => true
  | some v, some w => v.equals mode w
  | _, _ => false

/-- Compares two fields by presence and by the state of their values. -/
def Field.same : Field Value → Field Value → Bool
  | .absent, .absent => true
  | .null, .null => true
  | .value v, .value w => v.equals .state w
  | _, _ => false

end EntityGraph
