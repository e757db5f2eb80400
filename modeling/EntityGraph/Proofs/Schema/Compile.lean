import EntityGraph.Proofs.Ordered
import EntityGraph.Proofs.Schema.DeriveOrder

/-! What is known about the layouts and enumerations of an accepted schema. -/

namespace EntityGraph

open List

variable {rules : List (String × Rule)} {i : Nat}

/-- What the checks and the analysis establish about a layout. -/
structure Layout.Accepted (l : Layout) : Prop where
  /-- Each name belongs to one field. -/
  names : (l.fields.map fun f => f.name).Nodup
  /-- The wire has the positions of the fields that belong there. -/
  wire : ∀ i, i ∈ l.wireOrder ↔ ∃ f, l.fields[i]? = some f ∧ f.onWire = true
  /-- It has each of them once. -/
  wireOnce : l.wireOrder.Nodup
  /-- The order of derivations has the pure ones. -/
  derived : ∀ i, i ∈ l.deriveOrder ↔ ∃ f, l.fields[i]? = some f ∧ f.isPure = true
  /-- Each comes after the pure ones that it reads. -/
  after : ∀ before i later, l.deriveOrder = before ++ i :: later →
    ∀ f, l.fields[i]? = some f → ∀ name ∈ f.inputs, ∀ j, l.indexOf? name = some j → j ≠ i →
      ∀ g, l.fields[j]? = some g → g.isPure = true → j ∈ before

theorem Layout.of_indexOf? {l : Layout} {name : String} (found : l.indexOf? name = some i) :
    ∃ f, l.fields[i]? = some f ∧ f.name = name := by
  obtain ⟨inside, same, -⟩ := findIdx?_eq_some_iff_getElem.mp found
  exact ⟨l.fields[i], getElem?_eq_getElem inside, by simpa using same⟩

/-- The field of a name is the one at the position of that name. -/
theorem Layout.field?_of_indexOf? {l : Layout} {name : String} {f : FieldInfo}
    (position : l.indexOf? name = some i) (found : l.fields[i]? = some f) : l.field? name = some f := by
  obtain ⟨inside, named, first⟩ := findIdx?_eq_some_iff_getElem.mp position
  obtain ⟨_, rfl⟩ := List.getElem?_eq_some_iff.mp found
  refine find?_eq_some_iff_getElem.mpr ⟨named, i, inside, rfl, fun j before => ?_⟩
  simpa using first j before

namespace Declarations

variable {fields : List FieldDecl}

/-- Fields that pass the checks differ in their names and numbers. -/
theorem of_checkFields {d : Declarations} {type : String} {earlier : List FieldDecl}
    (checked : checkFields d type earlier fields = .ok ()) :
    fields.Pairwise (fun f g => f.name ≠ g.name ∧ f.compatId ≠ g.compatId) ∧
      ∀ e ∈ earlier, ∀ f ∈ fields, e.name ≠ f.name ∧ e.compatId ≠ f.compatId := by
  induction fields generalizing earlier with
  | nil => simp
  | cons f rest ih =>
    unfold checkFields at checked
    split at checked
    · cases checked
    · rename_i freshName
      split at checked
      · cases checked
      · rename_i freshId
        obtain ⟨_, -, others⟩ := Except.bind_eq_ok.mp checked
        obtain ⟨apart, fromEarlier⟩ := ih others
        -- The field differs from those before it, and those behind it differ from it.
        have fresh : ∀ e ∈ earlier, e.name ≠ f.name ∧ e.compatId ≠ f.compatId := by
          intro e member
          simp only [any_eq_true, beq_iff_eq, not_exists, not_and] at freshName freshId
          exact ⟨freshName e member, freshId e member⟩
        refine ⟨pairwise_cons.mpr ⟨fun g member => fromEarlier f mem_cons_self g member, apart⟩, ?_⟩
        intro e before g member
        rcases mem_cons.mp member with rfl | later
        · exact fresh e before
        · exact fromEarlier e (.tail _ before) g later

theorem mem_positions {test : FieldDecl → Bool} :
    i ∈ positions fields test ↔ ∃ f, fields[i]? = some f ∧ test f = true := by
  unfold positions
  rw [mem_filter, mem_range]
  cases found : fields[i]? with
  | none => simp
  | some f =>
    have inside : i < fields.length := (List.getElem?_eq_some_iff.mp found).1
    simp [inside]

/-- Ordering the fields by their numbers loses none, since no two have the same number. -/
theorem perm_wireOrder (apart : fields.Pairwise fun f g => f.compatId ≠ g.compatId) :
    (wireOrder fields).Perm (positions fields FieldDecl.onWire) := by
  apply Ordered.perm_ofList
  -- Positions stand in increasing order, so two of them belong to two fields.
  have increasing : (positions fields FieldDecl.onWire).Pairwise (· < ·) := pairwise_lt_range.filter _
  refine List.Pairwise.imp_of_mem ?_ increasing
  intro i j first second before
  obtain ⟨f, here, -⟩ := mem_positions.mp first
  obtain ⟨g, there, -⟩ := mem_positions.mp second
  -- Two numbers that differ are in order one way or the other.
  obtain ⟨inside, here⟩ := List.getElem?_eq_some_iff.mp here
  obtain ⟨inside', there⟩ := List.getElem?_eq_some_iff.mp there
  have differs := pairwise_iff_getElem.mp apart i j inside inside' before
  simp only [getElem?_eq_getElem inside, getElem?_eq_getElem inside', Option.map_some, Option.getD_some,
    decide_eq_true_eq]
  omega

/-- The layout of a type that passes its checks is accepted. -/
theorem accepted_layout {d : Declarations} {serial : Nat} {t : TypeDecl} {order : List Nat}
    (checked : d.checkType t = .ok order) : (d.layout serial rules t order).Accepted := by
  -- The fields were checked first, and their derivations ordered last.
  obtain ⟨_, fields, others⟩ := Except.bind_eq_ok.mp checked
  obtain ⟨_, -, ordered⟩ := Except.bind_eq_ok.mp others
  obtain ⟨apart, -⟩ := of_checkFields fields
  have perm := perm_wireOrder (apart.imp And.right)
  -- A field of the layout is a declared one with what was found out about it.
  have declared : ∀ (i : Nat) (f : FieldInfo), (d.layout serial rules t order).fields[i]? = some f →
      t.fields[i]? = some f.toFieldDecl := by
    intro i f found
    simp only [layout, getElem?_map, Option.map_eq_some_iff] at found
    obtain ⟨g, there, rfl⟩ := found
    exact there
  have run : DeriveOrder.run t.fields = .ok order := by
    unfold deriveOrder at ordered
    split at ordered
    · rename_i result
      cases ordered
      exact result
    · cases ordered
  obtain ⟨-, members, after⟩ := DeriveOrder.run_ok run
  have pure : ∀ i, DeriveOrder.isPure t.fields i = true ↔
      ∃ f, (d.layout serial rules t order).fields[i]? = some f ∧ f.isPure = true := by
    intro i
    rw [DeriveOrder.isPure]
    simp only [layout, getElem?_map]
    cases t.fields[i]? <;> simp
  constructor
  case names =>
    have names : (d.layout serial rules t order).fields.map (fun f => f.name) = t.fields.map fun f => f.name := by
      simp [layout]
    rw [names]
    exact pairwise_map.mpr (apart.imp And.left)
  case wire =>
    intro i
    have same : i ∈ (d.layout serial rules t order).wireOrder ↔ i ∈ positions t.fields FieldDecl.onWire := perm.mem_iff
    rw [same, mem_positions]
    constructor
    · rintro ⟨f, found, onWire⟩
      refine ⟨⟨f, References.reachesDangerous d f, References.mayLink d f⟩, ?_, onWire⟩
      simp only [layout, getElem?_map, found, Option.map_some]
    · rintro ⟨f, found, onWire⟩
      exact ⟨_, declared i f found, onWire⟩
  case wireOnce => exact perm.nodup_iff.mpr (nodup_range.filter _)
  case derived => exact fun i => (members i).trans (pure i)
  case after =>
    intro before i later split f found name read j named other g there isPure
    refine after before i later split j ?_ ((pure j).mpr ⟨g, there, isPure⟩)
    -- The name was looked up among the declared fields in the same way.
    have position : (t.fields.findIdx? fun g => g.name == name) = some j := by
      simp only [Layout.indexOf?, layout, findIdx?_map] at named
      exact named
    -- Only pure derivations are in the order, so the field is one and its inputs are read.
    have derives : f.isPure = true := by
      have member := (members i).mp (by rw [show order = _ from split]; simp)
      rwa [DeriveOrder.isPure, declared i f found] at member
    unfold DeriveOrder.reads
    rw [declared i f found]
    simp only [derives, if_true, mem_filter, mem_filterMap]
    exact ⟨⟨name, read, position⟩, by simpa using other⟩

/-- Numbers that pass the check are not zero, and no two are the same. -/
theorem of_badId? {seen ids : List UInt32} (good : badId? seen ids = none) :
    ids.Nodup ∧ ∀ id ∈ ids, id ≠ 0 ∧ id ∉ seen := by
  induction ids generalizing seen with
  | nil => simp
  | cons id rest ih =>
    unfold badId? at good
    split at good
    · cases good
    · -- The number is seen by all that follow it.
      rename_i fresh
      obtain ⟨distinct, others⟩ := ih good
      simp only [Bool.or_eq_true, beq_iff_eq, contains_iff_mem, not_or] at fresh
      refine ⟨nodup_cons.mpr ⟨fun again => (others id again).2 mem_cons_self, distinct⟩, ?_⟩
      intro other member
      rcases mem_cons.mp member with rfl | later
      · exact fresh
      · exact ⟨(others other later).1, fun before => (others other later).2 (.tail _ before)⟩

/-- Names that pass the check are all different. -/
theorem of_firstRepeat? {seen names : List String} (good : firstRepeat? seen names = none) :
    names.Nodup ∧ ∀ name ∈ names, name ∉ seen := by
  induction names generalizing seen with
  | nil => simp
  | cons name rest ih =>
    unfold firstRepeat? at good
    split at good
    · cases good
    · -- The name is seen by all that follow it.
      rename_i fresh
      obtain ⟨distinct, unseen⟩ := ih good
      have first : name ∉ rest := fun later => unseen name later mem_cons_self
      refine ⟨nodup_cons.mpr ⟨first, distinct⟩, fun other member => ?_⟩
      rcases mem_cons.mp member with rfl | later
      · simpa using fresh
      · exact fun before => unseen other later (.tail _ before)

end Declarations

namespace Schema

variable {serial : Nat} {d : Declarations} {s : Schema} {name : String} {l : Layout}

/-- The declarations have passed every check, in whatever order they are made, and the schema is made of them. -/
structure Compiles (serial : Nat) (d : Declarations) (s : Schema) (rules : List (String × Rule))
    (orders : List (List Nat)) : Prop where
  names : d.checkNames = .ok ()
  enums : ∀ e ∈ d.enums, Declarations.checkEnum e = .ok ()
  members : ∀ o ∈ d.opens, d.checkMembers o = .ok ()
  types : List.Forall₂ (fun t order => d.checkType t = .ok order) d.types orders
  ruled : Rules.compile d = .ok rules
  schema : s = ⟨serial, List.zipWith (d.layout serial rules) d.types orders, d.enums, d.opens⟩

section

variable (compiled : compile serial d = .ok s)
include compiled

/-- An accepted schema is made of declarations that have passed their checks. -/
theorem compiles_of_compile : ∃ rules orders, Compiles serial d s rules orders := by
  unfold compile at compiled
  obtain ⟨_, names, compiled⟩ := Except.bind_eq_ok.mp compiled
  obtain ⟨_, enums, compiled⟩ := Except.bind_eq_ok.mp compiled
  obtain ⟨_, opens, compiled⟩ := Except.bind_eq_ok.mp compiled
  obtain ⟨orders, types, compiled⟩ := Except.bind_eq_ok.mp compiled
  obtain ⟨rules, ruled, compiled⟩ := Except.bind_eq_ok.mp compiled
  cases compiled
  exact ⟨rules, orders, names, Except.of_forM_eq_ok enums, Except.of_forM_eq_ok opens,
    Except.forall₂_of_mapM_eq_ok types, ruled, rfl⟩

theorem of_compile :
    (∀ e ∈ s.enums, Declarations.checkEnum e = .ok ()) ∧
      ∃ rules orders, List.Forall₂ (fun t order => d.checkType t = .ok order) d.types orders ∧
        s.types = List.zipWith (d.layout serial rules) d.types orders := by
  obtain ⟨rules, orders, -, enums, -, types, -, rfl⟩ := compiles_of_compile compiled
  exact ⟨enums, rules, orders, types, rfl⟩

theorem enums_of_compile : s.enums = d.enums := by
  obtain ⟨rules, orders, compiles⟩ := compiles_of_compile compiled
  rw [compiles.schema]

theorem opens_of_compile : s.opens = d.opens ∧ ∀ o ∈ d.opens, d.checkMembers o = .ok () := by
  obtain ⟨rules, orders, compiles⟩ := compiles_of_compile compiled
  exact ⟨by rw [compiles.schema], compiles.members⟩

/-- The types of accepted declarations have names of their own. -/
theorem names_of_compile : (d.types.map fun t => t.name).Nodup := by
  obtain ⟨rules, orders, compiles⟩ := compiles_of_compile compiled
  have names := compiles.names
  unfold Declarations.checkNames at names
  split at names
  · cases names
  · -- Types share their names' space with enumerations and open types, and stand first in it.
    rename_i good
    rw [append_assoc] at good
    exact (Declarations.of_firstRepeat? good).1.sublist (sublist_append_left _ _)

end

/-- Layouts stand in the order of the types, under their names, so a name finds a type and its layout or neither. -/
theorem Compiles.type? {orders : List (List Nat)} (compiles : Compiles serial d s rules orders) (name : String) :
    Option.Rel (fun t l =>
      ∃ order, d.checkType t = .ok order ∧ l = d.layout serial rules t order) (d.type? name) (s.type? name) := by
  rw [Schema.type?, compiles.schema, Declarations.type?]
  have checked := compiles.types
  clear compiles
  simp only
  generalize d.types = types at checked ⊢
  induction checked with
  | nil => exact .none
  | @cons t order _ _ first _ ih =>
    have named : (d.layout serial rules t order).name = t.name := rfl
    rw [zipWith_cons_cons, find?_cons, find?_cons, named]
    cases t.name == name with
    | true => exact .some ⟨order, first, rfl⟩
    | false => exact ih

section compiles

variable {orders : List (List Nat)} (compiles : Compiles serial d s rules orders)

include compiles

theorem Compiles.declared (found : s.type? name = some l) : ∃ t order, d.type? name = some t ∧
    d.checkType t = .ok order ∧ l = d.layout serial rules t order := by
  have both := compiles.type? name
  rw [found] at both
  generalize d.type? name = o at both
  cases both with
  | some related =>
    obtain ⟨order, checked, same⟩ := related
    exact ⟨_, order, rfl, checked, same⟩

theorem Compiles.layout {t : TypeDecl} (declared : d.type? name = some t) :
    ∃ order, s.type? name = some (d.layout serial rules t order) := by
  have both := compiles.type? name
  rw [declared] at both
  generalize s.type? name = o at both ⊢
  cases both with
  | some related =>
    obtain ⟨order, -, rfl⟩ := related
    exact ⟨order, rfl⟩

end compiles

theorem declared_of_type? (compiled : compile serial d = .ok s) (found : s.type? name = some l) :
    ∃ t rules order, d.type? name = some t ∧ d.checkType t = .ok order ∧ l = d.layout serial rules t order := by
  obtain ⟨rules, orders, compiles⟩ := compiles_of_compile compiled
  obtain ⟨t, order, declared⟩ := compiles.declared found
  exact ⟨t, rules, order, declared⟩

theorem type?_of_declared (compiled : compile serial d = .ok s) {t : TypeDecl} (found : d.type? name = some t) :
    ∃ l, s.type? name = some l := by
  obtain ⟨rules, orders, compiles⟩ := compiles_of_compile compiled
  obtain ⟨order, there⟩ := compiles.layout found
  exact ⟨_, there⟩

theorem accepted_of_type? (compiled : compile serial d = .ok s) (found : s.type? name = some l) : l.Accepted := by
  obtain ⟨t, rules, order, -, checked, rfl⟩ := declared_of_type? compiled found
  exact Declarations.accepted_layout checked

theorem name_of_type? (found : s.type? name = some l) : l.name = name := by
  simpa using find?_some found

section enums

variable (compiled : compile serial d = .ok s) {e : Enumeration} (found : s.enum? name = some e)
include compiled found

theorem ids_of_enum? : (e.values.map Prod.fst).Nodup ∧ ∀ id ∈ e.values.map Prod.fst, id ≠ 0 := by
  have checked := (of_compile compiled).1 e (mem_of_find?_eq_some found)
  have good : Declarations.badId? [] (e.values.map Prod.fst) = none := by
    unfold Declarations.checkEnum at checked
    split at checked
    · cases checked
    · assumption
  obtain ⟨distinct, nonzero⟩ := Declarations.of_badId? good
  exact ⟨distinct, fun id listed => (nonzero id listed).1⟩

/-- A listed value of an accepted schema is found by its number, which is not zero. -/
theorem nameOf?_of_listed {id : UInt32} {value : String} (listed : (id, value) ∈ e.values) :
    id ≠ 0 ∧ e.nameOf? id = some value := by
  obtain ⟨distinct, nonzero⟩ := ids_of_enum? compiled found
  refine ⟨nonzero id (mem_map_of_mem listed), ?_⟩
  -- The first value with the number is the only one.
  exact Option.map_eq_some_iff.mpr ⟨(id, value), find?_of_mem Prod.fst distinct listed, rfl⟩

end enums

end Schema

end EntityGraph
