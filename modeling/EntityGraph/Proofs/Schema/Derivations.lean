import EntityGraph.Proofs.Schema.Compile

/-! Derivations that read each other in a cycle keep a declaration from being accepted, and nothing else is reported as
a cycle. -/

namespace EntityGraph

open List

open Relation

variable {t : TypeDecl} {order : List Nat}

section checks

variable {d : Declarations} {type : String} {names : List String}

/-- The check of a kind never reports a cycle. -/
theorem Declarations.checkKind_ne_cycle (k : Kind) : d.checkKind k ≠ .error (.derivationCycle type names) := by
  induction k with
  | list k ih => exact ih
  | map k ih => exact ih
  | enum name | record name | openType name =>
    unfold checkKind
    split <;> exact fun failed => by cases failed
  | _ => exact fun failed => by cases failed

/-- Nor does the check of fields. -/
theorem Declarations.checkFields_ne_cycle (owner : String) (earlier fields : List FieldDecl) :
    checkFields d owner earlier fields ≠ .error (.derivationCycle type names) := by
  induction fields generalizing earlier with
  | nil => exact fun failed => by cases failed
  | cons f rest ih =>
    unfold checkFields
    split
    · exact fun failed => by cases failed
    split
    · exact fun failed => by cases failed
    · exact Except.bind_ne_error (checkKind_ne_cycle f.kind) fun _ => ih _

/-- Nor does that of a derivation. -/
theorem Declarations.checkDerivation_ne_cycle (t : TypeDecl) (f : FieldDecl) :
    checkDerivation t f ≠ .error (.derivationCycle type names) := by
  unfold checkDerivation
  split
  · exact fun failed => by cases failed
  · split <;> exact fun failed => by cases failed

/-- Nor does the compilation of rules. -/
theorem Rules.compile_ne_cycle : Rules.compile d ≠ .error (.derivationCycle type names) := by
  refine Except.bind_ne_error ?_ fun _ failed => by cases failed
  refine Except.mapM_ne_error fun t _ => Except.mapM_ne_error fun f _ => Except.mapM_ne_error fun trigger _ => ?_
  unfold ofTrigger
  dsimp only
  split
  · exact fun failed => by cases failed
  · split <;> exact fun failed => by cases failed

/-- A declaration in which no search for an order finds a cycle is not rejected for one. -/
theorem Schema.compile_ne_cycle {serial : Nat}
    (none : ∀ t ∈ d.types, Declarations.deriveOrder t ≠ .error (.derivationCycle type names)) :
    compile serial d ≠ .error (.derivationCycle type names) := by
  refine Except.bind_ne_error ?_ fun _ => Except.bind_ne_error (Except.forM_ne_error (fun e => ?_) _) fun _ =>
    Except.bind_ne_error (Except.forM_ne_error (fun o => ?_) _) fun _ =>
    Except.bind_ne_error (Except.mapM_ne_error fun t member => ?_) fun _ =>
    Except.bind_ne_error Rules.compile_ne_cycle fun _ failed => by cases failed
  · unfold Declarations.checkNames
    split <;> exact fun failed => by cases failed
  · unfold Declarations.checkEnum
    split <;> exact fun failed => by cases failed
  · unfold Declarations.checkMembers
    split <;> exact fun failed => by cases failed
  · exact Except.bind_ne_error (Declarations.checkFields_ne_cycle _ _ _) fun _ =>
      Except.bind_ne_error (Except.forM_ne_error (Declarations.checkDerivation_ne_cycle t) _) fun _ => none t member

end checks

namespace TypeDecl

/-- An order with each pure derivation once, after all pure derivations that it reads or that these read. -/
structure Schedules (t : TypeDecl) (order : List Nat) : Prop where
  once : order.Nodup
  members : ∀ i, i ∈ order ↔ DeriveOrder.isPure t.fields i = true
  after : ∀ before i later, order = before ++ i :: later → ∀ j, TransGen (DeriveOrder.Reads t.fields) i j →
    DeriveOrder.isPure t.fields j = true → j ∈ before

/-- The names of more than one field, where each has a pure derivation that reads the next and the last reads the
first. -/
def NamesCycle (t : TypeDecl) (names : List String) : Prop :=
  1 < names.length ∧ ∃ cycle, DeriveOrder.IsCycle t.fields cycle ∧
    List.Forall₂ (fun i name => t.fields[i]?.map (fun f => f.name) = some name) cycle names

/-- Where there is an order nothing reads itself over others. -/
theorem Schedules.irreflexive (scheduled : t.Schedules order) (i : Nat) :
    ¬ TransGen (DeriveOrder.Reads t.fields) i i := by
  intro around
  obtain ⟨next, read, -⟩ := TransGen.head'_iff.mp around
  obtain ⟨before, later, split, new⟩ := eq_append_cons_of_mem ((scheduled.members i).mpr read.isPure)
  exact new (scheduled.after before i later split i around read.isPure)

end TypeDecl

namespace Declarations

/-- The order that is found is one. -/
theorem schedules_of_deriveOrder (ordered : deriveOrder t = .ok order) : t.Schedules order := by
  unfold deriveOrder at ordered
  split at ordered
  · rename_i ran
    cases ordered
    obtain ⟨once, members, after⟩ := DeriveOrder.run_ok ran
    exact ⟨once, members, fun _ _ _ split _ read pure => DeriveOrder.mem_of_transGen after read pure split⟩
  · cases ordered

theorem deriveOrder_of_checkType {d : Declarations} (checked : d.checkType t = .ok order) :
    deriveOrder t = .ok order := by
  obtain ⟨_, -, others⟩ := Except.bind_eq_ok.mp checked
  obtain ⟨_, -, ordered⟩ := Except.bind_eq_ok.mp others
  exact ordered

/-- The names that are reported are those of a cycle. -/
theorem namesCycle_of_deriveOrder {e : SchemaError} (failed : deriveOrder t = .error e) :
    ∃ names, e = .derivationCycle t.name names ∧ t.NamesCycle names ∧
      ∃ i, TransGen (DeriveOrder.Reads t.fields) i i := by
  unfold deriveOrder at failed
  split at failed
  · cases failed
  · rename_i cycle ran
    cases failed
    have closed := DeriveOrder.run_error ran
    obtain ⟨many, around⟩ := closed.transGen
    -- Every position of the cycle reads another one, so there is a field at it.
    have named : ∀ members ⊆ cycle, List.Forall₂ (fun i name => t.fields[i]?.map (fun f => f.name) = some name) members
        (members.filterMap fun i => t.fields[i]?.map fun f => f.name) := by
      intro members among
      induction members with
      | nil => exact .nil
      | cons i rest ih =>
        obtain ⟨j, -, f, found, -⟩ := closed.reads i (among mem_cons_self)
        rw [filterMap_cons_some (by rw [found]; rfl)]
        exact .cons (by rw [found]; rfl) (ih (subset_of_cons_subset among))
    replace named := named cycle (List.Subset.refl _)
    exact ⟨_, rfl, ⟨named.length_eq ▸ many, cycle, closed, named⟩, around⟩

end Declarations

/-- The order of pure derivations is found exactly if there is one. Where they read each other in a cycle, an error
names one. Otherwise the order has each pure derivation once, after all others that it reads, directly or over others.
One that reads its own field is no cycle. What a schema has and what it is rejected for is the result for one of its
types. -/
theorem Schema.derivations_exact :
    (∀ t : TypeDecl, (∃ i, TransGen (DeriveOrder.Reads t.fields) i i) →
      ∃ names, Declarations.deriveOrder t = .error (.derivationCycle t.name names) ∧ t.NamesCycle names) ∧
    (∀ t : TypeDecl, (¬ ∃ i, TransGen (DeriveOrder.Reads t.fields) i i) →
      ∃ order, Declarations.deriveOrder t = .ok order ∧ t.Schedules order) ∧
    ∀ (serial : Nat) (d : Declarations),
      (∀ s, compile serial d = .ok s → ∀ t ∈ d.types, ∃ l ∈ s.types, l.name = t.name ∧
        Declarations.deriveOrder t = .ok l.deriveOrder) ∧
      ∀ type names, compile serial d = .error (.derivationCycle type names) →
        ∃ t ∈ d.types, Declarations.deriveOrder t = .error (.derivationCycle type names) := by
  refine ⟨fun t around => ?_, fun t straight => ?_, fun serial d => ⟨?_, ?_⟩⟩
  · cases ordered : Declarations.deriveOrder t with
    | ok order =>
      obtain ⟨i, around⟩ := around
      exact absurd around ((Declarations.schedules_of_deriveOrder ordered).irreflexive i)
    | error e =>
      obtain ⟨names, rfl, named, -⟩ := Declarations.namesCycle_of_deriveOrder ordered
      exact ⟨names, rfl, named⟩
  · cases ordered : Declarations.deriveOrder t with
    | ok order => exact ⟨order, rfl, Declarations.schedules_of_deriveOrder ordered⟩
    | error e =>
      obtain ⟨-, -, -, around⟩ := Declarations.namesCycle_of_deriveOrder ordered
      exact absurd around straight
  · intro s compiled t member
    obtain ⟨-, rules, orders, checked, types⟩ := of_compile compiled
    obtain ⟨k, there⟩ := mem_iff_getElem?.mp member
    obtain ⟨order, here, passed⟩ := exists_of_forall₂ checked.flip there
    refine ⟨d.layout serial rules t order, ?_, rfl, ?_⟩
    · rw [types]
      exact mem_of_getElem? (i := k) (by rw [getElem?_zipWith, there, here])
    · exact Declarations.deriveOrder_of_checkType passed
  · -- Only the search for an order reports a cycle, among all the checks that are made.
    intro type names failed
    by_contra none
    exact compile_ne_cycle (fun t member reported => none ⟨t, member, reported⟩) failed

end EntityGraph
