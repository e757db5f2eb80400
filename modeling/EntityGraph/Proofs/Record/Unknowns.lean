import EntityGraph.Formula
import EntityGraph.Proofs.Record.Induction
import EntityGraph.Record.Equality

/-! Records with their unknown records changed, at whatever depth these are.

Comparisons and derivations look at nothing but the names of unknown records, so a change that keeps the names is not
seen. -/

namespace EntityGraph

open List

mutual

/-- The value with its unknown records changed. -/
def Value.mapUnknown (change : Unknown → Unknown) : Value → Value
  | .record r => .record (recordMapUnknown change r)
  | .unknown u => .unknown (change u)
  | .list items => .list (itemsMapUnknown change items)
  | .map entries => .map (entriesMapUnknown change entries)
  | v => v

/-- The elements with their unknown records changed. -/
def itemsMapUnknown (change : Unknown → Unknown) : List (Option Value) → List (Option Value)
  | some v :: rest => some (v.mapUnknown change) :: itemsMapUnknown change rest
  | none :: rest => none :: itemsMapUnknown change rest
  | [] => []

/-- The entries with their unknown records changed. -/
def entriesMapUnknown (change : Unknown → Unknown) : List (String × Option Value) → List (String × Option Value)
  | (k, some v) :: rest => (k, some (v.mapUnknown change)) :: entriesMapUnknown change rest
  | (k, none) :: rest => (k, none) :: entriesMapUnknown change rest
  | [] => []

/-- The record with its unknown records changed. -/
def recordMapUnknown (change : Unknown → Unknown) : RecordOf Value → RecordOf Value
  | ⟨layout, fields⟩ => ⟨layout, fieldsMapUnknown change fields⟩

/-- The fields with their unknown records changed. -/
def fieldsMapUnknown (change : Unknown → Unknown) : List (Field Value) → List (Field Value)
  | .value v :: rest => .value (v.mapUnknown change) :: fieldsMapUnknown change rest
  | .null :: rest => .null :: fieldsMapUnknown change rest
  | .absent :: rest => .absent :: fieldsMapUnknown change rest
  | [] => []

end

/-- The field with its unknown records changed. -/
def Field.mapUnknown (change : Unknown → Unknown) : Field Value → Field Value
  | .value v => .value (v.mapUnknown change)
  | .null => .null
  | .absent => .absent

variable {change : Unknown → Unknown}

/-- Fields are changed one by one. -/
theorem fieldsMapUnknown_eq_map (fields : List (Field Value)) :
    fieldsMapUnknown change fields = fields.map (Field.mapUnknown change) := by
  induction fields with
  | nil => rfl
  | cons f rest ih => cases f <;> simp [fieldsMapUnknown, Field.mapUnknown, ih]

/-- A name has the changed field. -/
theorem RecordOf.field_mapUnknown (r : Record) (name : String) :
    (recordMapUnknown change r).field name = (r.field name).mapUnknown change := by
  rcases r with ⟨layout, fields⟩
  unfold RecordOf.field recordMapUnknown
  dsimp only
  -- The positions of names are those of the layout, which stays.
  cases layout.indexOf? name with
  | none => rfl
  | some i =>
    dsimp only
    rw [fieldsMapUnknown_eq_map, getElem?_map]
    cases fields[i]? <;> rfl

/-- Changing unknown records twice is changing them once. -/
theorem Value.mapUnknown_mapUnknown (again : Unknown → Unknown) (v : Value) :
    (v.mapUnknown change).mapUnknown again = v.mapUnknown (again ∘ change) := by
  induction v using Value.induct with
  | scalar v plain => cases v <;> first | rfl | cases plain
  | record r ih =>
    rcases r with ⟨layout, fields⟩
    induction fields with
    | nil => rfl
    | cons f rest later => cases f <;> simp_all [Value.mapUnknown, recordMapUnknown, fieldsMapUnknown]
  | list items ih =>
    induction items with
    | nil => rfl
    | cons item rest later => cases item <;> simp_all [Value.mapUnknown, itemsMapUnknown]
  | map entries ih =>
    induction entries with
    | nil => rfl
    | cons e rest later =>
      have others := later fun k v member => ih k v (.tail _ member)
      rcases e with ⟨k, _ | v⟩
      · simp_all [Value.mapUnknown, entriesMapUnknown]
      · simp_all [Value.mapUnknown, entriesMapUnknown, ih k v mem_cons_self]

/-- Two changes are one. -/
theorem recordMapUnknown_mapUnknown (again : Unknown → Unknown) (r : Record) :
    recordMapUnknown again (recordMapUnknown change r) = recordMapUnknown (again ∘ change) r := by
  simpa [Value.mapUnknown] using Value.mapUnknown_mapUnknown again (.record r)

/-! ### Comparisons and derivations -/

/-- A comparison does not see a change of unknown records that keeps their names. -/
theorem Value.equals_mapUnknown (kept : ∀ u, (change u).name = u.name) (mode : Comparison) (v w : Value) :
    (v.mapUnknown change).equals mode (w.mapUnknown change) = v.equals mode w := by
  induction v using Value.induct generalizing w with
  | scalar v plain =>
    -- This is the one place where unknown records are looked at.
    cases v <;> cases w <;> first | rfl | (cases plain; done) | simp only [Value.mapUnknown, Value.equals, kept]
  | record r ih =>
    cases w with
    | record r' =>
      rcases r with ⟨layout, fields⟩
      have name : (recordMapUnknown change r').layout.name = r'.layout.name := by
        rcases r' with ⟨layout', fields'⟩
        rfl
      rw [Value.mapUnknown, Value.mapUnknown, Value.equals, Value.equals, recordMapUnknown, recordEquals, recordEquals,
        name]
      congr 1
      generalize layout.fields = infos
      induction fields generalizing infos with
      | nil => cases infos <;> rfl
      | cons f rest later =>
        have others := later fun v member => ih v (.tail _ member)
        cases infos with
        | nil => cases f <;> rfl
        | cons info infos =>
          -- Both fields are changed alike, so they are still compared with each other.
          have field : (recordMapUnknown change r').field info.name = (r'.field info.name).mapUnknown change :=
            RecordOf.field_mapUnknown r' info.name
          cases f <;> cases there : r'.field info.name <;>
            simp only [fieldsMapUnknown, fieldsEqual, others infos, field, there, Field.mapUnknown]
          rw [ih _ mem_cons_self]
    | _ => rfl
  | list items ih =>
    cases w with
    | list items' =>
      rw [Value.mapUnknown, Value.mapUnknown, Value.equals, Value.equals]
      induction items generalizing items' with
      | nil => rcases items' with - | ⟨- | w, rest'⟩ <;> rfl
      | cons item rest later =>
        have others := later fun v member => ih v (.tail _ member)
        rcases items' with - | ⟨- | w, rest'⟩ <;> cases item <;> simp_all [itemsMapUnknown, itemsEqual]
    | _ => rfl
  | map entries ih =>
    cases w with
    | map entries' =>
      rw [Value.mapUnknown, Value.mapUnknown, Value.equals, Value.equals]
      induction entries generalizing entries' with
      | nil => rcases entries' with - | ⟨⟨k', - | w⟩, rest'⟩ <;> rfl
      | cons e rest later =>
        have others := later fun k v member => ih k v (.tail _ member)
        rcases entries' with - | ⟨⟨k', - | w⟩, rest'⟩ <;> rcases e with ⟨k, _ | v⟩ <;>
          simp only [entriesMapUnknown, entriesEqual, others]
        rw [ih k v mem_cons_self]
    | _ => rfl

/-- Comparisons do not see a change that keeps names. -/
theorem recordEquals_mapUnknown (kept : ∀ u, (change u).name = u.name) (mode : Comparison) (r r' : Record) :
    recordEquals mode (recordMapUnknown change r) (recordMapUnknown change r') = recordEquals mode r r' := by
  simpa [Value.mapUnknown, Value.equals] using Value.equals_mapUnknown kept mode (.record r) (.record r')

namespace Derivation

/-- Neither does the test for blanks. -/
theorem isBlank_mapUnknown (v : Value) : isBlank (v.mapUnknown change) = isBlank v := by
  cases v with
  | list items => rcases items with - | ⟨- | v, rest⟩ <;> rfl
  | map entries => rcases entries with - | ⟨⟨k, - | v⟩, rest⟩ <;> rfl
  | record r => rcases r with ⟨layout, fields⟩; rfl
  | _ => rfl

theorem available?_mapUnknown (f : Field Value) :
    available? (f.mapUnknown change) = (available? f).map (Value.mapUnknown change) := by
  cases f with
  | value v =>
    simp only [Field.mapUnknown, available?, isBlank_mapUnknown]
    split <;> rfl
  | null => rfl
  | absent => rfl

/-- The same source is the first one that is not blank, whatever its unknown records are changed to. -/
theorem firstAvailable_mapUnknown (sources : List (Field Value)) :
    firstAvailable (sources.map (Field.mapUnknown change)) = (firstAvailable sources).mapUnknown change := by
  -- The same source is found.
  have found : (sources.map (Field.mapUnknown change)).findSome? available? =
      (sources.findSome? available?).map (Value.mapUnknown change) := by
    induction sources with
    | nil => rfl
    | cons f rest ih =>
      rw [map_cons, findSome?_cons, findSome?_cons, available?_mapUnknown]
      cases available? f with
      | none => exact ih
      | some v => rfl
  -- Whether a source is declared does not depend on its value.
  have declared : (sources.map (Field.mapUnknown change)).any Field.isDeclared = sources.any Field.isDeclared := by
    rw [any_map]
    congr 1
    funext f
    cases f <;> rfl
  unfold firstAvailable
  rw [found, declared]
  cases sources.findSome? available? with
  | some v => rfl
  | none =>
    simp only [Option.map_none]
    split <;> rfl

end Derivation

end EntityGraph
