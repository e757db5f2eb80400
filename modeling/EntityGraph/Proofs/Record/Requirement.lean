import EntityGraph.Record.Basic

/-! Requirements on a value and on all that it holds. They share one traversal: a requirement says what it asks at each
place, given what it asks inside. -/

namespace EntityGraph

/-- What is asked of a value and of all that it holds. A place is what is known of where a value stands, such as its
kind or depth. An answer is a proposition, or a truth value where it is computed. -/
structure Requirement (Place Answer : Type) where
  /-- Where nothing is left to ask. -/
  nothing : Answer
  both : Answer → Answer → Answer
  leaf : Value → Place → Answer
  /-- What is asked of a list, given what is asked of its elements at a place. -/
  atList : List (Option Value) → Place → (Place → Answer) → Answer
  atMap : List (String × Option Value) → Place → (Place → Answer) → Answer
  /-- What is asked of a record that stands in a value, given what is asked of the record. -/
  atRecord : Record → Place → (Place → Answer) → Answer
  /-- What is asked of a record, given what is asked of its fields. -/
  whole : Record → Place → Answer → Answer
  /-- What is asked of the value of a field, if the layout describes the field. -/
  atField : Layout → Option FieldInfo → Place → (Place → Answer) → Answer

namespace Requirement

/-- Nothing is asked anywhere, and all that a value holds stands at its own place. -/
def plain {Place Answer : Type} (nothing : Answer) (both : Answer → Answer → Answer) : Requirement Place Answer where
  nothing := nothing
  both := both
  leaf _ _ := nothing
  atList _ place elements := elements place
  atMap _ place values := values place
  atRecord _ place inside := inside place
  whole _ _ fields := fields
  atField _ _ place value := value place

variable {Place Answer : Type} (c : Requirement Place Answer)

mutual

/-- What is asked of a value at a place. -/
def value : Value → Place → Answer
  | .record r, place => c.atRecord r place fun inside => record r inside
  | .list values, place => c.atList values place fun inside => items values inside
  | .map values, place => c.atMap values place fun inside => entries values inside
  | v, place => c.leaf v place

/-- What is asked of a record. -/
def record : RecordOf Value → Place → Answer
  | ⟨layout, values⟩, place => c.whole ⟨layout, values⟩ place (fields layout values layout.fields place)

/-- What is asked of fields and their descriptions, side by side. -/
def fields (layout : Layout) : List (Field Value) → List FieldInfo → Place → Answer
  | .value v :: rest, infos, place =>
    c.both (c.atField layout infos.head? place fun inside => value v inside) (fields layout rest infos.tail place)
  | .null :: rest, infos, place => fields layout rest infos.tail place
  | .absent :: rest, infos, place => fields layout rest infos.tail place
  | [], _, _ => c.nothing

/-- What is asked of the elements of a list. -/
def items : List (Option Value) → Place → Answer
  | some v :: rest, place => c.both (value v place) (items rest place)
  | none :: rest, place => items rest place
  | [], _ => c.nothing

/-- What is asked of the values in the entries of a map. -/
def entries : List (String × Option Value) → Place → Answer
  | (_, some v) :: rest, place => c.both (value v place) (entries rest place)
  | (_, none) :: rest, place => entries rest place
  | [], _ => c.nothing

end

/-- Answers are put together as conjunctions are. -/
structure Conjoins (holds : Answer → Prop) : Prop where
  nothing : holds c.nothing
  both : ∀ a b, holds (c.both a b) ↔ holds a ∧ holds b

variable {c} {holds : Answer → Prop} {place : Place}

/-- What is asked of a list is asked of each element. -/
theorem Conjoins.items_iff (conjoins : c.Conjoins holds) {values : List (Option Value)} :
    holds (c.items values place) ↔ ∀ v, some v ∈ values → holds (c.value v place) := by
  induction values with
  | nil => simp [items, conjoins.nothing]
  | cons item rest ih => cases item <;> simp [items, conjoins.both, ih]

/-- What is asked of a map is asked of the value of each entry. -/
theorem Conjoins.entries_iff (conjoins : c.Conjoins holds) {values : List (String × Option Value)} :
    holds (c.entries values place) ↔ ∀ key v, (key, some v) ∈ values → holds (c.value v place) := by
  induction values with
  | nil => simp [entries, conjoins.nothing]
  | cons entry rest ih =>
    rcases entry with ⟨key, item⟩
    cases item <;> simp [entries, conjoins.both, ih, or_imp, forall_and]

/-- What is asked of fields is asked of the value at each position. -/
theorem Conjoins.fields_iff (conjoins : c.Conjoins holds) {layout : Layout} {values : List (Field Value)}
    {infos : List FieldInfo} : holds (c.fields layout values infos place) ↔
      ∀ (i : Nat) (v : Value), values[i]? = some (.value v) →
        holds (c.atField layout infos[i]? place fun inside => c.value v inside) := by
  induction values generalizing infos with
  | nil => simp [fields, conjoins.nothing]
  | cons f rest ih =>
    -- The descriptions are a step ahead, as the fields are.
    have later : ∀ i : Nat, infos.tail[i]? = infos[i + 1]? := fun i => by cases infos <;> simp
    rw [← Nat.and_forall_add_one]
    simp only [List.getElem?_cons_succ, List.getElem?_cons_zero, Option.some.injEq, ← later]
    rw [← ih]
    cases f <;> simp [fields, conjoins.both, List.head?_eq_getElem?]

end Requirement

end EntityGraph
