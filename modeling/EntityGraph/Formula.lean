import EntityGraph.Diff
import EntityGraph.Text.Blank

/-! Derivations at work: what the names of formulas mean, and how pure derivations fill a record. -/

namespace EntityGraph

/-- What a contextual formula may look at. -/
structure Context where
  /-- The record whose field is derived, as last built. -/
  current : Record
  /-- The name of the field. -/
  field : String
  /-- The changes of the round. -/
  diff : Diff
  /-- The current snapshot of the entity that a record identifies. -/
  find : Record → Option Record
  /-- The current snapshots of all live records of a type. -/
  allOf : String → List Record

/-- What the names of formulas mean. A pure formula reads the fields of its record by name. -/
structure Formulas where
  pure : String → (String → Field Value) → Field Value
  contextual : String → Context → Field Value

namespace Derivation

/-- A text of white space, or a collection without elements. -/
def isBlank : Value → Bool
  | .text s => Blank.isBlankText s
  | .list items => items.isEmpty
  | .map entries => entries.isEmpty
  | _ => false

/-- A field with a value that is not blank. -/
def available? : Field Value → Option Value
  | .value v => if isBlank v then none else some v
  | _ => none

/-- The first value that is not blank. Without one the result is null, or absent if all sources are. -/
def firstAvailable (sources : List (Field Value)) : Field Value :=
  match sources.findSome? available? with
  | some v => .value v
  | none => if sources.any Field.isDeclared then .null else .absent

/-- The value of a pure derivation, given the fields of its record. -/
def evaluate? (formulas : Formulas) (read : String → Field Value) : Derivation → Option (Field Value)
  | .firstOf sources => some (firstAvailable (sources.map read))
  | .computed _ formula => some (formulas.pure formula read)
  | .contextual _ => none

end Derivation

namespace RecordOf

/-- Runs the pure derivation at one position. -/
def deriveAt (formulas : Formulas) (r : Record) (i : Nat) : Record :=
  match (r.layout.fields[i]?.bind fun f => f.derivation).bind (Derivation.evaluate? formulas r.field) with
  | some f => ⟨r.layout, r.fields.set i f⟩
  | none => r

/-- Runs every pure derivation, each after those it reads. -/
def derive (formulas : Formulas) (r : Record) : Record :=
  r.layout.deriveOrder.foldl (deriveAt formulas) r

/-- Runs the pure derivations that stay off the wire. The others keep the values that were read. -/
def deriveOffWire (formulas : Formulas) (r : Record) : Record :=
  (r.layout.deriveOrder.filter fun i => !(r.layout.fields[i]?.any fun f => f.onWire)).foldl
    (deriveAt formulas) r

end RecordOf

/-- Runs the contextual derivation at one position of the current record, if there is one. -/
def Context.derive? (formulas : Formulas) (current : Record) (i : Nat) (diff : Diff)
    (find : Record → Option Record) (allOf : String → List Record) : Option (Field Value) :=
  match current.layout.fields[i]? with
  | none => none
  | some info =>
    match info.derivation with
    | some (.contextual formula) => some (formulas.contextual formula ⟨current, info.name, diff, find, allOf⟩)
    | _ => none

end EntityGraph
