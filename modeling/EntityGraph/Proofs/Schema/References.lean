import EntityGraph.Proofs.Reach
import EntityGraph.Proofs.Schema.Compile
import EntityGraph.Record.Basic

/-! Which records can hold dangerous data and identifiable records: the analysis of an accepted schema is exact. -/

namespace EntityGraph

open List

variable {name : String} {k : Kind}

namespace Declarations

variable {d : Declarations}

/-- Fields that pass the checks have known kinds. -/
theorem checkKind_of_checkFields {type : String} {earlier fields : List FieldDecl}
    (checked : checkFields d type earlier fields = .ok ()) : ∀ f ∈ fields, checkKind d f.kind = .ok () := by
  induction fields generalizing earlier with
  | nil => simp
  | cons f rest ih =>
    unfold checkFields at checked
    split at checked
    · cases checked
    · split at checked
      · cases checked
      · obtain ⟨_, known, others⟩ := Except.bind_eq_ok.mp checked
        intro g member
        rcases mem_cons.mp member with rfl | later
        · exact known
        · exact ih others g later

/-- The types that a known kind refers to are declared, if the members of open types are. -/
theorem declared_of_checkKind (members : ∀ o ∈ d.opens, d.checkMembers o = .ok ())
    (checked : checkKind d k = .ok ()) : ∀ name ∈ References.ofKind d k, (d.type? name).isSome = true := by
  induction k with
  | record name =>
    unfold checkKind at checked
    split at checked
    · rename_i known
      simpa [References.ofKind] using known
    · cases checked
  | openType name =>
    intro member listed
    unfold References.ofKind at listed
    cases found : d.open? name with
    | none => simp [found] at listed
    | some o =>
      simp only [found, Option.map_some, Option.getD_some] at listed
      -- A member that is not declared would have been found.
      have passed := members o (mem_of_find?_eq_some found)
      unfold checkMembers at passed
      split at passed
      · cases passed
      · rename_i none
        simpa [Option.isSome_iff_ne_none] using find?_eq_none.mp none member listed
  | list k ih => exact ih checked
  | map k ih => exact ih checked
  | _ => simp [References.ofKind]

end Declarations

namespace References

open Relation

variable {serial : Nat} {d : Declarations} {s : Schema}

/-- One type can hold records of another. -/
def Holds (d : Declarations) (a b : String) : Prop :=
  b ∈ ofType d a

/-- What a declared type of an accepted schema can hold is declared. -/
theorem declared_of_ofType (compiled : Schema.compile serial d = .ok s) :
    ∀ a, (d.type? a).isSome = true → ∀ b ∈ ofType d a, (d.type? b).isSome = true := by
  intro a declared b held
  obtain ⟨t, found⟩ := Option.isSome_iff_exists.mp declared
  obtain ⟨l, there⟩ := Schema.type?_of_declared compiled found
  obtain ⟨t', rules, order, found', checked, -⟩ := Schema.declared_of_type? compiled there
  rw [found] at found'
  cases found'
  obtain ⟨_, fields, -⟩ := Except.bind_eq_ok.mp checked
  -- The type is held by a field, whose kind was checked.
  rw [ofType, found] at held
  obtain ⟨f, member, listed⟩ := mem_flatMap.mp held
  exact Declarations.declared_of_checkKind (Schema.opens_of_compile compiled).2
    (Declarations.checkKind_of_checkFields fields f member) b listed

/-- A type that passes the test can be reached from the given one, which counts itself. -/
def Finds (d : Declarations) (test : TypeDecl → Bool) (name : String) : Prop :=
  ∃ other t, ReflTransGen (Holds d) name other ∧ d.type? other = some t ∧ test t = true

/-- The type itself passes the test, or one can be reached from what it holds. -/
theorem finds_iff {test : TypeDecl → Bool} :
    Finds d test name ↔ (d.type? name).any test = true ∨ ∃ first ∈ ofType d name, Finds d test first := by
  rw [Option.any_eq_true]
  constructor
  · rintro ⟨other, t, path, found, passed⟩
    rcases path.cases_head with rfl | ⟨first, held, path⟩
    · exact Or.inl ⟨t, found, passed⟩
    · exact Or.inr ⟨first, held, other, t, path, found, passed⟩
  · rintro (⟨t, found, passed⟩ | ⟨first, held, other, t, path, found, passed⟩)
    · exact ⟨name, t, .refl, found, passed⟩
    · exact ⟨other, t, .head held path, found, passed⟩

theorem ofType_of_field {t : TypeDecl} (found : d.type? name = some t) {f : FieldDecl} (member : f ∈ t.fields) :
    ofKind d f.kind ⊆ ofType d name := by
  intro other listed
  rw [ofType, found]
  exact mem_flatMap.mpr ⟨f, member, listed⟩

section exact

variable (compiled : Schema.compile serial d = .ok s)
include compiled

/-- The test of reachable types looks at all that can be reached. -/
theorem anyReachable_iff {names : List String} (declared : ∀ name ∈ names, (d.type? name).isSome = true)
    (test : TypeDecl → Bool) : anyReachable d names test = true ↔ ∃ name ∈ names, Finds d test name := by
  have room : ∀ path : List String, path.Nodup → (∀ a ∈ path, (d.type? a).isSome = true) →
      path.length ≤ d.types.length := by
    intro path distinct all
    have inside : path ⊆ d.types.map fun t => t.name := by
      intro name member
      obtain ⟨t, found⟩ := Option.isSome_iff_exists.mp (all name member)
      exact mem_map.mpr ⟨t, mem_of_find?_eq_some found, by simpa using find?_some found⟩
    simpa using (distinct.subperm inside).length_le
  have closure := Reach.mem_closure (declared_of_ofType compiled) room (Nat.lt_succ_self _) declared
  simp only [anyReachable, reachable, any_eq_true, closure, Option.any_eq_true]
  constructor
  · rintro ⟨other, ⟨name, member, path⟩, t, found, passed⟩
    exact ⟨name, member, other, t, path, found, passed⟩
  · rintro ⟨name, member, other, t, path, found, passed⟩
    exact ⟨other, ⟨name, member, path⟩, t, found, passed⟩

theorem dangerousCapable_iff (declared : (d.type? name).isSome = true) :
    dangerousCapable d name = true ↔ Finds d TypeDecl.hasDangerous name := by
  rw [dangerousCapable, anyReachable_iff compiled (by simpa using declared)]
  simp only [mem_singleton, exists_eq_left]

theorem containsIdentifiable_iff (declared : (d.type? name).isSome = true) :
    containsIdentifiable d name = true ↔ ∃ first ∈ ofType d name, Finds d TypeDecl.identifiable first :=
  anyReachable_iff compiled (declared_of_ofType compiled name declared) _

variable {t : TypeDecl} (found : d.type? name = some t) {f : FieldDecl} (member : f ∈ t.fields)
include found member

theorem declared_of_field : ∀ first ∈ ofKind d f.kind, (d.type? first).isSome = true := fun first listed =>
  declared_of_ofType compiled name (by rw [found]; rfl) first (ofType_of_field found member listed)

/-- A field leads to dangerous data exactly if it is dangerous itself, or a type that it can hold leads there. -/
theorem reachesDangerous_iff : reachesDangerous d f = true ↔
    f.dangerous = true ∨ ∃ first ∈ ofKind d f.kind, Finds d TypeDecl.hasDangerous first := by
  rw [reachesDangerous, Bool.or_eq_true, any_eq_true]
  refine or_congr_right (exists_congr fun first => and_congr_right fun listed => ?_)
  exact dangerousCapable_iff compiled (declared_of_field compiled found member first listed)

theorem mayLink_iff : mayLink d f = true ↔ ∃ first ∈ ofKind d f.kind, Finds d TypeDecl.identifiable first := by
  rw [mayLink, any_eq_true]
  refine exists_congr fun first => and_congr_right fun listed => ?_
  rw [Bool.or_eq_true, containsIdentifiable_iff compiled (declared_of_field compiled found member first listed),
    ← finds_iff]

end exact

end References

namespace Schema

variable {serial : Nat} {d : Declarations} {s : Schema} {l : Layout} {info : FieldInfo}

/-- Where a record cannot hold identifiable ones, no field of its type can link. -/
theorem mayLink_eq_false (compiled : compile serial d = .ok s) (found : s.type? name = some l)
    (leaf : l.containsIdentifiable = false) (member : info ∈ l.fields) : info.mayLink = false := by
  obtain ⟨t, rules, order, declared, -, rfl⟩ := declared_of_type? compiled found
  simp only [Declarations.layout, mem_map] at member leaf
  obtain ⟨f, listed, rfl⟩ := member
  have named : t.name = name := by simpa using find?_some declared
  by_contra links
  rw [Bool.not_eq_false, References.mayLink_iff compiled declared listed] at links
  obtain ⟨first, held, leads⟩ := links
  -- What a field can hold, its type can.
  rw [named, (References.containsIdentifiable_iff compiled (by rw [declared]; rfl)).mpr
    ⟨first, References.ofType_of_field declared listed held, leads⟩] at leaf
  cases leaf

/-- A type that a field without links can hold is not identifiable, and holds no identifiable records. -/
theorem leaf_of_mayLink (compiled : compile serial d = .ok s) (found : s.type? name = some l) (member : info ∈ l.fields)
    (unlinked : info.mayLink = false) {other : String} {l' : Layout} (listed : other ∈ References.ofKind d info.kind)
    (there : s.type? other = some l') : l'.identifiable = false ∧ l'.containsIdentifiable = false := by
  obtain ⟨t, rules, order, declared, -, rfl⟩ := declared_of_type? compiled found
  obtain ⟨t', rules', order', declared', -, rfl⟩ := declared_of_type? compiled there
  simp only [Declarations.layout, mem_map] at member ⊢
  obtain ⟨f, -, rfl⟩ := member
  have named : t'.name = other := by simpa using find?_some declared'
  have none := any_eq_false.mp unlinked other listed
  simp only [declared', Option.any_some, Bool.or_eq_true, not_or, Bool.not_eq_true] at none
  rw [named]
  exact none

end Schema

/-- The record's layout is the schema's own of its type name. -/
def Schema.declares (s : Schema) (r : Record) : Bool :=
  s.type? r.typeName == some r.layout

/-- A value has the shape of a kind, where a record of an open type is a member and every record passes a test. -/
def Kind.conforms (schema : Schema) (test : Record → Bool) : Kind → Value → Bool
  | .record name, .record r => r.typeName == name && test r
  | .openType name, .record r => (schema.member? name r.typeName).isSome && test r
  | .list k, .list items => items.all fun item => match item with
    | some v => k.conforms schema test v
    | none => true
  | .map k, .map entries => entries.all fun entry => match entry.2 with
    | some v => k.conforms schema test v
    | none => true
  | k, v => k.accepts v

/-- A record of the shape of a kind is of one of the types that the kind refers to, and passes the test. -/
theorem Kind.reference_of_conforms {serial : Nat} {d : Declarations} {schema : Schema}
    (compiled : Schema.compile serial d = .ok schema) {test : Record → Bool} {r : Record}
    (conforms : k.conforms schema test (.record r) = true) : r.typeName ∈ References.ofKind d k ∧ test r = true := by
  cases k with
  | record name =>
    simp only [Kind.conforms, Bool.and_eq_true, beq_iff_eq] at conforms
    exact ⟨by simp [References.ofKind, conforms.1], conforms.2⟩
  | openType name =>
    simp only [Kind.conforms, Bool.and_eq_true, Option.isSome_iff_exists] at conforms
    obtain ⟨⟨l, member⟩, passed⟩ := conforms
    refine ⟨?_, passed⟩
    -- A member of the open type is one of the types that the kind refers to.
    obtain ⟨o, found, listed⟩ := Option.bind_eq_some_iff.mp member
    have declared : d.open? name = some o := by
      rw [Declarations.open?, ← (Schema.opens_of_compile compiled).1]
      exact found
    split at listed
    · rename_i among
      simpa [References.ofKind, declared] using among
    · cases listed
  | _ => cases conforms

end EntityGraph
