import EntityGraph.Proofs.Schema.References
import EntityGraph.Proofs.Wire.Compatible

/-! Declarations in another order. The positions of fields change with it, but what stands on the wire does not: fields
are ordered there by their numbers. -/

namespace EntityGraph

open List

variable {l l' : Layout}

/-- The same type with its fields declared in another order. -/
structure TypeDecl.Reordered (t t' : TypeDecl) : Prop where
  name : t.name = t'.name
  action : t.action = t'.action
  fields : t.fields.Perm t'.fields

/-- The same declarations in another order: of types, of the fields of each type, of enumerations and of open types. -/
structure Declarations.Reordered (d d' : Declarations) : Prop where
  types : ∃ types, d.types.Perm types ∧ List.Forall₂ TypeDecl.Reordered types d'.types
  enums : d.enums.Perm d'.enums
  opens : d.opens.Perm d'.opens

/-- Layouts with the same declared fields, which stand in the same order on the wire. -/
structure Layout.Reordered (l l' : Layout) : Prop where
  name : l.name = l'.name
  identifiable : l.identifiable = l'.identifiable
  fields : (l.fields.map FieldInfo.toFieldDecl).Perm (l'.fields.map FieldInfo.toFieldDecl)
  wire : l.wireFields.map FieldInfo.toFieldDecl = l'.wireFields.map FieldInfo.toFieldDecl

/-- The fields at one place on the wire are declared in the same way. -/
theorem Layout.Reordered.aligned (reordered : l.Reordered l') (accepted : l.Accepted)
    (accepted' : l'.Accepted) : List.Forall₂ (fun i j => ∃ f g, l.fields[i]? = some f ∧ l'.fields[j]? = some g ∧
      f.toFieldDecl = g.toFieldDecl) l.wireOrder l'.wireOrder := by
  have size : l.wireOrder.length = l'.wireOrder.length := by
    rw [← accepted.length_wireFields, ← accepted'.length_wireFields]
    simpa using congrArg List.length reordered.wire
  refine forall₂_of_getElem? size fun k i j here there => ?_
  obtain ⟨f, found, -⟩ := (accepted.wire i).mp (mem_of_getElem? here)
  obtain ⟨g, found', -⟩ := (accepted'.wire j).mp (mem_of_getElem? there)
  refine ⟨f, g, found, found', ?_⟩
  -- Both stand at the same place among the fields on the wire.
  have same := congrArg (fun fields => fields[k]?) reordered.wire
  simpa [accepted.getElem?_wireFields, accepted'.getElem?_wireFields, here, there, found, found'] using same

namespace Declarations

/-- Positions with a test are those of the fields that pass it. -/
theorem filterMap_positions (fields : List FieldDecl) (test : FieldDecl → Bool) :
    (positions fields test).filterMap (fun i => fields[i]?) = fields.filter test := by
  have all : (List.range fields.length).filterMap (fun i => fields[i]?) = fields := by
    induction fields with
    | nil => rfl
    | cons f rest ih =>
      rw [length_cons, range_succ_eq_map, filterMap_cons, filterMap_map]
      exact congrArg (f :: ·) ih
  -- A position passes the test if its field does.
  have each : (fun i : Nat => if (fields[i]?.any test) = true then fields[i]? else none) =
      fun i : Nat => Option.filter test fields[i]? := by
    funext i
    cases fields[i]? with
    | none => rfl
    | some f => simp [Option.filter]
  rw [positions, filterMap_filter, each, ← filter_filterMap, all]

/-- The fields on the wire stand in the order of their numbers. -/
theorem pairwise_wireOrder (fields : List FieldDecl) :
    ((wireOrder fields).filterMap fun i => fields[i]?).Pairwise fun f g => f.compatId < g.compatId := by
  rw [pairwise_filterMap]
  have sorted : (wireOrder fields).Pairwise fun i j => decide ((fields[i]?.map fun f => f.compatId).getD 0 <
      (fields[j]?.map fun f => f.compatId).getD 0) = true := by
    -- The list is made by insertion, which keeps an order that is transitive.
    refine Ordered.pairwise_ofList (fun a b c first second => ?_) _
    simp only [decide_eq_true_eq] at first second ⊢
    omega
  refine sorted.imp fun before f here g there => ?_
  simpa [here, there] using before

/-- The fields on the wire do not depend on the order of their declaration. -/
theorem wireOrder_of_perm {fields fields' : List FieldDecl}
    (apart : fields.Pairwise fun f g => f.compatId ≠ g.compatId) (perm : fields.Perm fields') :
    (wireOrder fields).filterMap (fun i => fields[i]?) = (wireOrder fields').filterMap fun i => fields'[i]? := by
  have apart' := (perm.pairwise_iff fun differs => differs.symm).mp apart
  -- Both lists have the same fields, and no list has them in two orders.
  have same : ((wireOrder fields).filterMap fun i => fields[i]?).Perm
      ((wireOrder fields').filterMap fun i => fields'[i]?) := by
    refine ((perm_wireOrder apart).filterMap _).trans ?_
    rw [filterMap_positions]
    refine (perm.filter _).trans ?_
    rw [← filterMap_positions]
    exact ((perm_wireOrder apart').filterMap _).symm
  refine same.eq_of_pairwise (fun f g _ _ before after => ?_) (pairwise_wireOrder fields) (pairwise_wireOrder fields')
  omega

/-- The layouts of a type and of its reordered version. -/
theorem layout_reordered {d d' : Declarations} {serial serial' : Nat} {rules rules' : List (String × Rule)}
    {t t' : TypeDecl} {order order' : List Nat} (checked : d.checkType t = .ok order) (reordered : t.Reordered t') :
    (d.layout serial rules t order).Reordered (d'.layout serial' rules' t' order') where
  name := reordered.name
  identifiable := reordered.fields.any_eq
  fields := by
    simp only [layout, map_map, Function.comp_def, map_id_fun', id]
    exact reordered.fields
  wire := by
    -- The check has told the numbers of the fields apart.
    obtain ⟨_, fields, -⟩ := Except.bind_eq_ok.mp checked
    have same := wireOrder_of_perm ((of_checkFields fields).1.imp And.right) reordered.fields
    simp only [Layout.wireFields, layout, map_filterMap, getElem?_map, Option.map_map, Function.comp_def,
      Option.map_id_fun', id]
    exact same

variable {serial serial' : Nat} {d d' : Declarations} {s s' : Schema}

/-- The two versions of an accepted schema have reordered layouts under each name. -/
theorem Reordered.layout (reordered : d.Reordered d') (compiled : Schema.compile serial d = .ok s)
    (compiled' : Schema.compile serial' d' = .ok s') {name : String} (found : s.type? name = some l)
    (found' : s'.type? name = some l') : l.Reordered l' := by
  obtain ⟨t, rules, order, declared, checked, rfl⟩ := Schema.declared_of_type? compiled found
  obtain ⟨t', rules', order', declared', -, rfl⟩ := Schema.declared_of_type? compiled' found'
  refine layout_reordered checked ?_
  -- The type that was reordered has the name, and so it is the one that was found.
  obtain ⟨types, perm, each⟩ := reordered.types
  obtain ⟨k, inside, rfl⟩ := getElem_of_mem (mem_of_find?_eq_some declared')
  have inside' : k < types.length := by rwa [each.length_eq]
  have same : types[k].Reordered d'.types[k] := each.get inside' inside
  have member : types[k] ∈ d.types := perm.mem_iff.mpr (getElem_mem inside')
  have named : types[k].name = name := by
    rw [same.name]
    simpa using find?_some declared'
  -- No other type has the name.
  have only := find?_of_mem (fun t : TypeDecl => t.name) (Schema.names_of_compile compiled) member
  rw [named, show (d.types.find? fun t => t.name == name) = some t from declared] at only
  cases only
  exact same

end Declarations

end EntityGraph
