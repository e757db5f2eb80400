import EntityGraph.Proofs.Record.State

/-! Deriving respects equality in state: records that agree in all that is not derived agree in everything once their
pure derivations have run. -/

namespace EntityGraph

open List

variable {g : Field Value}

/-- The formulas of a layout read their declared inputs only, and from inputs that are the same, in presence and in
state, they compute what is the same. -/
def Formulas.RespectState (F : Formulas) (l : Layout) : Prop :=
  ∀ f ∈ l.fields, ∀ inputs formula, f.derivation = some (.computed inputs formula) →
    ∀ read read' : String → Field Value, (∀ name ∈ inputs, (read name).same (read' name) = true) →
      (F.pure formula read).same (F.pure formula read') = true

theorem FieldDecl.exists_derivation {f : FieldDecl} (pure : f.isPure = true) :
    ∃ d, f.derivation = some d ∧ d.isPure = true := by
  cases derives : f.derivation with
  | none => simp [isPure, derives] at pure
  | some d => exact ⟨d, rfl, by simpa [isPure, derives] using pure⟩

namespace Field

variable {f : Field Value}

theorem equals_of_same (same : f.same g = true) : f.equals .state g = true := by
  cases f with
  | value v => cases g with
    | value w => exact same
    | _ => cases same
  | _ => cases g with
    | value w => cases same
    | _ => rfl

theorem same_refl {s : Schema} (accepted : s.Accepted) (own : s.ownsField f = true) : f.same f = true := by
  cases f with
  | value v =>
    rw [Schema.ownsField_value] at own
    exact v.equals_refl accepted own
  | null => rfl
  | absent => rfl

theorem isDeclared_of_same (same : f.same g = true) : f.isDeclared = g.isDeclared := by
  cases f <;> cases g <;> simp_all [Field.same, isDeclared, isAbsent]

end Field

namespace Derivation

/-- Values that are equal in state are blank together. -/
theorem isBlank_of_equals {v w : Value} (equal : v.equals .state w = true) : isBlank v = isBlank w := by
  cases v with
  | text t => cases w with
    | text t' => rw [Value.equals, beq_iff_eq] at equal; rw [equal]
    | _ => cases equal
  | list items => cases w with
    | list items' =>
      -- A list without elements equals no other.
      rcases items with - | ⟨- | v, rest⟩ <;> rcases items' with - | ⟨- | w, rest'⟩ <;>
        simp_all [Value.equals, itemsEqual, isBlank]
    | _ => cases equal
  | map entries => cases w with
    | map entries' =>
      rcases entries with - | ⟨⟨k, - | v⟩, rest⟩ <;> rcases entries' with - | ⟨⟨k', - | w⟩, rest'⟩ <;>
        simp_all [Value.equals, entriesEqual, isBlank]
    | _ => cases equal
  | _ => cases w <;> simp_all [Value.equals, isBlank]

/-- Two values that may not be there are equal in state: both are missing, or their states are equal. -/
abbrev EqualStates : Option Value → Option Value → Prop :=
  Option.Rel fun v w => v.equals .state w = true

theorem available?_of_same {f : Field Value} (same : f.same g = true) : EqualStates (available? f) (available? g) := by
  cases f with
  | value v => cases g with
    | value w =>
      simp only [available?, isBlank_of_equals same]
      split
      · exact .none
      · exact .some same
    | _ => cases same
  | _ => cases g with
    | value w => cases same
    | _ => exact .none

section sources

variable {read read' : String → Field Value} {sources : List String}
  (same : ∀ name ∈ sources, (read name).same (read' name) = true)
include same

/-- The same source is the first one that is not blank. -/
theorem findSome?_of_same :
    EqualStates ((sources.map read).findSome? available?) ((sources.map read').findSome? available?) := by
  induction sources with
  | nil => exact .none
  | cons name rest ih =>
    have first := available?_of_same (same name (by simp))
    have later := ih fun other member => same other (by simp [member])
    rw [map_cons, map_cons, findSome?_cons, findSome?_cons]
    -- Both first sources are passed over, or both are taken.
    generalize available? (read name) = here, available? (read' name) = there at first
    cases first with
    | none => exact later
    | some equal => exact .some equal

theorem any_isDeclared_of_same :
    (sources.map read).any Field.isDeclared = (sources.map read').any Field.isDeclared := by
  induction sources with
  | nil => rfl
  | cons name rest ih =>
    have later := ih fun other member => same other (by simp [member])
    rw [map_cons, map_cons, any_cons, any_cons, later,
      Field.isDeclared_of_same (same name (by simp))]

/-- The first source that is not blank is the same. -/
theorem firstAvailable_of_same :
    (firstAvailable (sources.map read)).same (firstAvailable (sources.map read')) = true := by
  have found := findSome?_of_same same
  unfold firstAvailable
  rw [any_isDeclared_of_same same]
  generalize (sources.map read).findSome? available? = here, (sources.map read').findSome? available? = there at found
  cases found with
  | some equal => exact equal
  | none =>
    -- Without a source the result depends on what is declared, which is the same.
    dsimp only
    split <;> rfl

end sources

/-- A pure derivation computes the same from inputs that are the same. -/
theorem evaluate?_of_same {F : Formulas} {l : Layout} (respect : F.RespectState l) {f : FieldInfo}
    (member : f ∈ l.fields) {d : Derivation} (derives : f.derivation = some d) (pure : d.isPure = true)
    {read read' : String → Field Value} (same : ∀ name ∈ d.inputs, (read name).same (read' name) = true) :
    ∃ g g', d.evaluate? F read = some g ∧ d.evaluate? F read' = some g' ∧ g.same g' = true := by
  cases d with
  | firstOf sources => exact ⟨_, _, rfl, rfl, firstAvailable_of_same same⟩
  | computed inputs formula => exact ⟨_, _, rfl, rfl, respect f member inputs formula derives read read' same⟩
  | contextual formula => cases pure

end Derivation

namespace RecordOf

variable {derived later : List Nat} {i : Nat} {info : FieldInfo}

/-- Two records of a layout are the same, in presence and in state, in all fields but the pure derivations that have
not been run yet. -/
structure SameState (derived : List Nat) (r r' : Record) : Prop where
  layout : r'.layout = r.layout
  length : r.fields.length = r.layout.fields.length
  length' : r'.fields.length = r.layout.fields.length
  fields : ∀ (i : Nat) (info : FieldInfo), r.layout.fields[i]? = some info → info.isPure = false ∨ i ∈ derived →
    (r.fields[i]?.getD .absent).same (r'.fields[i]?.getD .absent) = true

variable {F : Formulas} {r r' : Record}

/-- What the next derivation reads is the same in both records, as long as it does not read itself. -/
theorem SameState.inputs (alike : SameState derived r r') (accepted : r.layout.Accepted)
    (order : r.layout.deriveOrder = derived ++ i :: later) (found : r.layout.fields[i]? = some info)
    (steady : info.readsItself = false) : ∀ name ∈ info.inputs, (r.field name).same (r'.field name) = true := by
  intro name read
  unfold RecordOf.field
  rw [alike.layout]
  cases named : r.layout.indexOf? name with
  | none =>
    -- A name that the layout does not know is absent in both.
    rfl
  | some j =>
    obtain ⟨input, there, own⟩ := Layout.of_indexOf? named
    refine alike.fields j input there ?_
    cases pure : input.isPure with
    | false => exact Or.inl rfl
    | true =>
      -- A pure input comes earlier in the order, since it is not the field itself.
      refine Or.inr (accepted.after derived i later order info found name read j named ?_ input there pure)
      rintro rfl
      rw [found] at there
      cases there
      rw [FieldDecl.readsItself, own] at steady
      simp [read] at steady

/-- Records that are the same in all fields are equal in state. -/
theorem SameState.equals (alike : SameState r.layout.deriveOrder r r') (accepted : r.layout.Accepted) :
    r.equals .state r' = true := by
  have unfolded : r.equals .state r' = (r.layout.name == r'.layout.name &&
      fieldsEqual .state r.layout r.fields r.layout.fields r') := by
    rcases r with ⟨layout, fields⟩
    rw [RecordOf.equals, recordEquals]
  rw [unfolded, Bool.and_eq_true, beq_iff_eq, fieldsEqual_iff (by decide), alike.layout]
  refine ⟨rfl, fun i f info here described => Or.inr ?_⟩
  -- A field is not derived, or it is in the order of derivations.
  have same := alike.fields i info described (by
    cases pure : info.isPure with
    | false => exact Or.inl rfl
    | true => exact Or.inr ((accepted.derived i).mpr ⟨info, described, pure⟩))
  rw [← alike.layout] at accepted described
  rw [field_name accepted described]
  rw [here, Option.getD_some] at same
  exact Field.equals_of_same same

section derive

variable (accepted : r.layout.Accepted) (respect : F.RespectState r.layout)
  (steady : ∀ f ∈ r.layout.fields, f.readsItself = false)
include accepted respect steady

/-- Running the next derivation in both records makes them the same there too. -/
theorem SameState.deriveAt (alike : SameState derived r r') (order : r.layout.deriveOrder = derived ++ i :: later) :
    SameState (derived ++ [i]) (r.deriveAt F i) (r'.deriveAt F i) := by
  have differs := differs_deriveAt F r i
  have differs' := differs_deriveAt F r' i
  refine ⟨?_, ?_, ?_, fun j info described place => ?_⟩
  · rw [differs'.layout, differs.layout, alike.layout]
  · rw [differs.length, differs.layout, alike.length]
  · rw [differs'.length, differs.layout, alike.length']
  rw [differs.layout] at described
  by_cases here : j = i
  · subst here
    -- A position in the order has a pure derivation, which reads the same in both records.
    obtain ⟨info', found, pure⟩ := (accepted.derived j).mp (by simp [order])
    obtain ⟨d, derives, pure⟩ := FieldDecl.exists_derivation pure
    have inputs := alike.inputs accepted order found (steady _ (mem_of_getElem? found))
    rw [FieldDecl.inputs, derives] at inputs
    obtain ⟨g, g', computed, computed', same⟩ :=
      Derivation.evaluate?_of_same respect (mem_of_getElem? found) derives pure inputs
    have inside := (List.getElem?_eq_some_iff.mp found).1
    rw [getElem?_deriveAt found derives pure (alike.length ▸ inside), computed,
      getElem?_deriveAt (alike.layout ▸ found) derives pure (alike.length' ▸ inside), computed']
    exact same
  · -- The other positions are as they were.
    rw [differs.fields j (by simpa using here), differs'.fields j (by simpa using here)]
    refine alike.fields j info described (place.imp_right fun member => ?_)
    simpa [here] using member

/-- Running derivations, each after those it reads, makes the records the same where they run. -/
theorem SameState.foldl_deriveAt (alike : SameState derived r r') (order : r.layout.deriveOrder = derived ++ later) :
    SameState r.layout.deriveOrder (later.foldl (RecordOf.deriveAt F) r) (later.foldl (RecordOf.deriveAt F) r') := by
  -- The records change with each derivation, their layout does not.
  induction later generalizing derived r r' with
  | nil =>
    rw [append_nil] at order
    rwa [order]
  | cons i later ih =>
    have layout := (differs_deriveAt F r i).layout
    have next := alike.deriveAt accepted respect steady order
    rw [← layout] at accepted respect steady
    rw [← layout]
    exact ih accepted respect steady next (by rw [layout, order, append_assoc]; rfl)

/-- Records that are the same in all that is not derived are equal in state once everything is derived. -/
theorem SameState.equals_derive (alike : SameState [] r r') : (r.derive F).equals .state (r'.derive F) = true := by
  have final := alike.foldl_deriveAt accepted respect steady (nil_append _).symm
  have layout : (r.derive F).layout = r.layout := (differs_foldl_deriveAt F r _).layout
  unfold RecordOf.derive at layout ⊢
  rw [alike.layout]
  generalize r.layout.deriveOrder.foldl (RecordOf.deriveAt F) r = full,
    r.layout.deriveOrder.foldl (RecordOf.deriveAt F) r' = full' at final layout ⊢
  rw [← layout] at accepted final
  exact final.equals accepted

end derive

/-- What is not derived stays absent if it is absent in the other record. -/
theorem SameState.absent_derive (alike : SameState [] r r') (accepted : r.layout.Accepted)
    (described : r.layout.fields[i]? = some info) (impure : info.isPure = false)
    (absent : r'.fields[i]?.getD .absent = .absent) : (r.derive F).field info.name = .absent := by
  have differs := differs_foldl_deriveAt F r r.layout.deriveOrder
  -- No derivation runs at its position.
  have stays : i ∉ r.layout.deriveOrder := by
    intro member
    obtain ⟨info', described', pure⟩ := (accepted.derived i).mp member
    rw [described] at described'
    cases described'
    rw [impure] at pure
    cases pure
  -- Only what is absent is the same as what is absent.
  have same := alike.fields i info described (Or.inl impure)
  rw [absent] at same
  have kept : r.fields[i]?.getD .absent = .absent := by
    cases there : r.fields[i]?.getD .absent with
    | absent => rfl
    | _ => rw [there] at same; cases same
  have layout : (r.derive F).layout = r.layout := differs.layout
  have fields : (r.derive F).fields[i]? = r.fields[i]? := differs.fields i stays
  rw [← layout] at accepted described
  rw [field_name accepted described, fields, kept]

end RecordOf

end EntityGraph
