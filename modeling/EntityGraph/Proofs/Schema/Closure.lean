import EntityGraph.Proofs.Schema.References

/-! An accepted schema refers to nothing outside itself: the kinds of its fields name types that it has, and the paths
of its rules lead from field to field. -/

namespace EntityGraph

open List

variable {rule : Rule}

/-- The record types that the kind names are in the schema. -/
def Kind.Resolves (s : Schema) : Kind → Prop
  | .record name => ∃ l, s.type? name = some l
  | .list k | .map k => k.Resolves s
  | _ => True

/-- A path leads, field by field, through records of the schema to a field of the kind. -/
inductive Schema.Follows (s : Schema) : Layout → Path → Kind → Prop where
  | last {l : Layout} {name : String} {info : FieldInfo} (there : l.field? name = some info) :
    Follows s l [name] info.kind
  | step {l inner : Layout} {name next : String} {info : FieldInfo} {rest : Path} {kind : Kind}
    (there : l.field? name = some info) (record : info.kind = .record next) (type : s.type? next = some inner)
    (further : Follows s inner rest kind) : Follows s l (name :: rest) kind

/-- The paths of the condition lead somewhere, that of an element from the type of the collection's elements. -/
def Condition.Resolves (s : Schema) (l : Layout) : Condition → Prop
  | .changed path | .unchanged path => ∃ kind, s.Follows l path kind
  | .elementChanged collection path => ∃ next inner kind,
    (s.Follows l collection (.list (.record next)) ∨ s.Follows l collection (.map (.record next))) ∧
      s.type? next = some inner ∧ s.Follows inner path kind

/-- A compiled rule observes a declared type, from which all its paths resolve. -/
theorem Rules.of_mem_compile {d : Declarations} {rules : List (String × Rule)} (compiled : compile d = .ok rules)
    {source : String} (member : (source, rule) ∈ rules) :
    ∃ observed, d.type? source = some observed ∧ badPath? d observed rule.condition = none := by
  obtain ⟨nested, each, same⟩ := Except.bind_eq_ok.mp compiled
  cases same
  -- The rule comes from one trigger of one field of one type.
  obtain ⟨ofFields, inner, listed⟩ := mem_flatten.mp member
  obtain ⟨ofTypes, outer, inner⟩ := mem_flatten.mp inner
  obtain ⟨t, -, each⟩ := exists_mem_of_forall₂ (Except.forall₂_of_mapM_eq_ok each) outer
  obtain ⟨f, -, each⟩ := exists_mem_of_forall₂ (Except.forall₂_of_mapM_eq_ok each) inner
  obtain ⟨trigger, -, made⟩ := exists_mem_of_forall₂ (Except.forall₂_of_mapM_eq_ok each) listed
  unfold ofTrigger at made
  cases declared : d.type? (trigger.source.getD t.name) with
  | none => simp [declared] at made
  | some observed =>
    cases bad : badPath? d observed trigger.condition with
    | some path => simp [declared, bad] at made
    | none =>
      simp only [declared, bad] at made
      cases made
      exact ⟨observed, declared, bad⟩

namespace Schema

variable {serial : Nat} {d : Declarations} {s : Schema} {name : String} {l : Layout}

/-- The kinds of the fields of an accepted schema resolve. -/
theorem resolves_of_type? (compiled : compile serial d = .ok s) (found : s.type? name = some l) :
    ∀ info ∈ l.fields, info.kind.Resolves s := by
  intro info member
  obtain ⟨t, rules, order, declared, -, rfl⟩ := declared_of_type? compiled found
  obtain ⟨f, listed, rfl⟩ := mem_map.mp member
  have known := References.declared_of_field compiled declared listed
  -- Lists and maps name what their elements name.
  change f.kind.Resolves s
  generalize f.kind = kind at known
  induction kind with
  | record other =>
    obtain ⟨t', declared'⟩ := Option.isSome_iff_exists.mp (known other mem_cons_self)
    exact type?_of_declared compiled declared'
  | list k ih => exact ih known
  | map k ih => exact ih known
  | _ => trivial

variable {rules : List (String × Rule)} {orders : List (List Nat)}

/-- A field of a declared type is one of its layout, of the same kind. -/
theorem field?_layout {t : TypeDecl} {order : List Nat} {f : FieldDecl} (found : t.field? name = some f) :
    ∃ info, (d.layout serial rules t order).field? name = some info ∧ info.kind = f.kind := by
  refine ⟨⟨f, References.reachesDangerous d f, References.mayLink d f⟩, ?_, rfl⟩
  rw [Layout.field?, Declarations.layout, find?_map]
  exact Option.map_eq_some_iff.mpr ⟨f, found, rfl⟩

/-- A path that resolves among the declarations leads from field to field of the schema. -/
theorem Compiles.follows (compiles : Compiles serial d s rules orders) {t : TypeDecl} {path : Path} {kind : Kind}
    (resolved : Rules.resolve? d t path = some kind) (order : List Nat) :
    s.Follows (d.layout serial rules t order) path kind := by
  induction path generalizing t order with
  | nil => cases resolved
  | cons name rest ih =>
    cases rest with
    | nil =>
      obtain ⟨f, found, rfl⟩ := Option.map_eq_some_iff.mp resolved
      obtain ⟨info, there, same⟩ := field?_layout found
      exact same ▸ .last there
    | cons next rest =>
      rw [Rules.resolve?] at resolved
      -- Every field but the last holds records of a declared type.
      split at resolved
      · rename_i other record
        split at resolved
        · rename_i inner declared
          obtain ⟨f, found, same⟩ := Option.map_eq_some_iff.mp record
          obtain ⟨info, there, same'⟩ := field?_layout found
          obtain ⟨order', type⟩ := compiles.layout declared
          exact .step there (same'.trans same) type (ih resolved order')
        · cases resolved
      · cases resolved
      · simp

/-- A condition without a path that fails to resolve is one whose paths lead somewhere. -/
theorem Compiles.resolves (compiles : Compiles serial d s rules orders) {t : TypeDecl} {condition : Condition}
    (good : Rules.badPath? d t condition = none) (order : List Nat) :
    condition.Resolves s (d.layout serial rules t order) := by
  -- A path that resolves among the declarations is one of the layouts too.
  have whole : ∀ {t : TypeDecl} {path : Path}, (if (Rules.resolve? d t path).isSome then none else some path) = none →
      ∀ order, ∃ kind, s.Follows (d.layout serial rules t order) path kind := by
    intro t path good order
    split at good
    · rename_i resolved
      obtain ⟨kind, resolved⟩ := Option.isSome_iff_exists.mp resolved
      exact ⟨kind, compiles.follows resolved order⟩
    · cases good
  cases condition with
  | changed path => exact whole good order
  | unchanged path => exact whole good order
  | elementChanged collection path =>
    rw [Rules.badPath?] at good
    split at good
    · cases good
    · -- The collection holds records of a declared type, where the other path starts.
      rename_i inner found
      obtain ⟨kind, resolved, element⟩ := Option.bind_eq_some_iff.mp found
      have leads := compiles.follows resolved order
      obtain ⟨next, declared, holds⟩ : ∃ next, d.type? next = some inner ∧
          (kind = .list (.record next) ∨ kind = .map (.record next)) := by
        unfold Rules.elementType? at element
        split at element
        · exact ⟨_, element, Or.inl rfl⟩
        · exact ⟨_, element, Or.inr rfl⟩
        · cases element
      obtain ⟨order', type⟩ := compiles.layout declared
      obtain ⟨last, further⟩ := whole good order'
      refine ⟨next, _, last, ?_, type, further⟩
      rcases holds with rfl | rfl
      · exact Or.inl leads
      · exact Or.inr leads

/-- The paths of every rule of an accepted schema lead somewhere from the type that has the rule. -/
theorem resolves_of_rule (compiled : compile serial d = .ok s) (found : s.type? name = some l)
    (member : rule ∈ l.rules) : rule.condition.Resolves s l := by
  obtain ⟨rules, orders, compiles⟩ := compiles_of_compile compiled
  obtain ⟨t, order, declared, -, rfl⟩ := compiles.declared found
  -- The rule was compiled from a trigger that observes this type, and no other type has its name.
  obtain ⟨⟨source, rule⟩, listed, rfl⟩ := mem_map.mp member
  obtain ⟨listed, observes⟩ := mem_filter.mp listed
  obtain ⟨observed, there, good⟩ := Rules.of_mem_compile compiles.ruled listed
  have named : t.name = name := by simpa using find?_some declared
  rw [show source = name from (beq_iff_eq.mp observes).trans named, declared] at there
  cases there
  exact compiles.resolves good order

end Schema

end EntityGraph
