import EntityGraph.Graph.Build
import EntityGraph.Proofs.Graph.Absorb
import EntityGraph.Proofs.Graph.Touch
import EntityGraph.Proofs.Record.Deriving

/-! Absorbing records of one entity without links and building its node gives what merging them into a draft and
building that gives. The graph keeps a field that is alike and leaves derivations to the snapshot, the draft overwrites
both, so the two agree in state. -/

namespace EntityGraph

open List

variable {t : Record} {ts : List Record} {f : Field Value} {info : FieldInfo}

namespace Draft

/-- A field over another one: a declared field hides what is below it. -/
def atop (f below : Field Value) : Field Value :=
  if f.isAbsent then below else f

theorem atop_absent (f : Field Value) : atop f .absent = f := by
  cases f <;> rfl

theorem layout_set (d : Draft) (name : String) (f : Field Value) : (d.set name f).layout = d.layout := by
  unfold set set?
  cases d.layout.indexOf? name with
  | none => rfl
  | some i =>
    dsimp only
    by_cases fitting : (d.layout.fields[i]?.any fun info => fits info.kind f) = true
    · rw [if_pos fitting]
      rfl
    · rw [if_neg fitting]

theorem layout_mergeField (same : Bool) (d : Draft) (entry : (FieldInfo × Field Value) × Nat) :
    (mergeField same d entry).layout = d.layout := by
  unfold mergeField
  split
  · rfl
  · split
    · rfl
    · exact layout_set d _ _

@[simp] theorem layout_merge (d : Draft) (t : Record) : (d.merge t).layout = d.layout := by
  unfold merge
  generalize decide (d.layout = t.layout) = same
  induction (t.layout.fields.zip t.fields).zipIdx generalizing d with
  | nil => rfl
  | cons entry rest ih => rw [foldl_cons, ih, layout_mergeField]

theorem layout_foldl_merge (d : Draft) (ts : List Record) : (ts.foldl merge d).layout = d.layout := by
  induction ts generalizing d with
  | nil => rfl
  | cons t rest ih => rw [foldl_cons, ih, layout_merge]

/-- Drafts with the same fields of the same layout are the same. -/
theorem eq_of_fields {d d' : Draft} (layout : d.layout = d'.layout) (fields : d.fields = d'.fields) : d = d' := by
  rcases d with ⟨⟨l, values⟩, sized⟩
  rcases d' with ⟨⟨l', values'⟩, sized'⟩
  cases layout
  cases fields
  rfl

/-- Taking over fields from some position on puts them over those that are there. -/
theorem fields_foldl_mergeField {d : Draft} {front olds news : List (Field Value)} {infos : List FieldInfo}
    (there : d.fields = front ++ olds) (described : news.length = infos.length) (sized : olds.length = infos.length) :
    (((infos.zip news).zipIdx front.length).foldl (mergeField true) d).fields =
      front ++ List.zipWith atop news olds := by
  induction infos generalizing d front olds news with
  | nil =>
    rw [length_eq_zero_iff.mp sized] at there
    rw [length_eq_zero_iff.mp described]
    exact there
  | cons info infos ih =>
    -- The field that is taken over joins those in front, and the position moves on.
    obtain ⟨f, news, rfl⟩ := exists_cons_of_length_eq_add_one described
    obtain ⟨old, olds, rfl⟩ := exists_cons_of_length_eq_add_one sized
    have first : (mergeField true d ((info, f), front.length)).fields = (front ++ [atop f old]) ++ olds := by
      unfold mergeField atop
      split <;> simp [put, there]
    have later := ih first (by simpa using described) (by simpa using sized)
    rw [length_append] at later
    rw [zip_cons_cons, zipIdx_cons, foldl_cons]
    simpa using later

theorem fields_merge {d : Draft} (layout : t.layout = d.layout) (length : t.fields.length = d.layout.fields.length) :
    (d.merge t).fields = List.zipWith atop t.fields d.fields := by
  unfold merge
  rw [layout, decide_eq_true rfl]
  have none : d.fields = [] ++ d.fields := rfl
  exact fields_foldl_mergeField none length d.sized

/-- What no record declares is absent in the merged draft if it was before. -/
theorem absent_foldl_merge {d : Draft}
    (each : ∀ t ∈ ts, t.layout = d.layout ∧ t.fields.length = d.layout.fields.length) {i : Nat}
    (before : d.fields[i]?.getD .absent = .absent) (undeclared : ∀ t ∈ ts, t.fields[i]?.getD .absent = .absent) :
    (ts.foldl merge d).fields[i]?.getD .absent = .absent := by
  induction ts generalizing d with
  | nil => exact before
  | cons t rest ih =>
    obtain ⟨layout, length⟩ := each t (by simp)
    rw [foldl_cons]
    refine ih ?_ ?_ fun r member => undeclared r (.tail t member)
    · rw [layout_merge]
      exact fun r member => each r (.tail t member)
    · -- Absent over absent is absent.
      have above := undeclared t (by simp)
      rw [fields_merge layout length, getElem?_zipWith]
      cases there : t.fields[i]? with
      | none => rfl
      | some f => cases here : d.fields[i]? with
        | none => rfl
        | some old =>
          rw [there, Option.getD_some] at above
          rw [here, Option.getD_some] at before
          rw [above, before]
          rfl

/-- A record that is merged into an empty draft makes the draft of the record. -/
theorem new_merge (sized : t.fields.length = t.layout.fields.length) : (Draft.new t.layout).merge t = ofRecord t := by
  have alone : ∀ fields : List (Field Value),
      List.zipWith atop fields (List.replicate fields.length .absent) = fields := by
    intro fields
    induction fields with
    | nil => rfl
    | cons f rest ih => rw [length_cons, replicate_succ, zipWith_cons_cons, atop_absent, ih]
  have layout : t.layout = (new t.layout).layout := rfl
  have empty : (new t.layout).fields = List.replicate t.fields.length .absent := by
    rw [sized]
    rfl
  refine eq_of_fields (layout_merge _ t) ?_
  rw [fields_merge layout sized, empty, alone]
  exact congrArg RecordOf.fields (raw_ofRecord ⟨t, sized⟩).symm

end Draft

namespace Stored

theorem sameField_plainField (f g : Field Value) : sameField (plainField f) (plainField g) = f.same g := by
  cases f <;> cases g <;> simp [sameField, plainField, sameFields, same, Field.same]

theorem fieldLinks_plainField (f : Field Value) : fieldLinks [plainField f] = [] := by
  cases f <;> simp [plainField, fieldLinks, links]

theorem fieldLinks_map_plainField (fields : List (Field Value)) : fieldLinks (fields.map plainField) = [] := by
  induction fields with
  | nil => rfl
  | cons f rest ih => rw [map_cons, fieldLinks_cons, fieldLinks_plainField, ih, append_nil]

end Stored

namespace RecordOf.SameState

variable {l : Layout} {vals fields : List (Field Value)} {i : Nat}

/-- Fields that are the same may be put into both records. -/
theorem set (alike : SameState [] ⟨l, vals⟩ ⟨l, fields⟩) {v : Field Value} (same : v.same f = true) :
    SameState [] ⟨l, vals.set i v⟩ ⟨l, fields.set i f⟩ := by
  refine ⟨rfl, by simpa using alike.length, by simpa using alike.length', fun j info described place => ?_⟩
  have inside := (List.getElem?_eq_some_iff.mp described).1
  by_cases here : i = j
  · subst here
    rw [getElem?_set_self (alike.length ▸ inside), getElem?_set_self (alike.length' ▸ inside)]
    exact same
  · rw [getElem?_set_ne here, getElem?_set_ne here]
    exact alike.fields j info described place

/-- What stands in the place of a pure derivation does not matter before it is run. -/
theorem set_pure (alike : SameState [] ⟨l, vals⟩ ⟨l, fields⟩) (described : l.fields[i]? = some info)
    (pure : info.isPure = true) (f : Field Value) : SameState [] ⟨l, vals⟩ ⟨l, fields.set i f⟩ := by
  refine ⟨rfl, alike.length, by simpa using alike.length', fun j info' described' place => ?_⟩
  have other : i ≠ j := by
    rintro rfl
    rw [described] at described'
    cases described'
    simp [pure] at place
  rw [getElem?_set_ne other]
  exact alike.fields j info' described' place

end RecordOf.SameState

namespace Graph

open Step

/-- The node of an entity holds what a draft holds, up to state: values without links, and no snapshot of them. Nothing
waits to be swept. -/
structure Mirrors (key : Key) (id : NodeId) (d : Draft) (g : Graph) : Prop where
  known : g.schema.type? d.layout.name = some d.layout
  found : g.find? key = some id
  orphans : g.orphans = []
  node : ∃ n vals, g.node? id = some n ∧ n.layout = d.layout ∧ n.fields = vals.map Stored.plainField ∧
    n.cached = none ∧ RecordOf.SameState [] ⟨d.layout, vals⟩ d.raw

namespace Mirrors

variable {key : Key} {id : NodeId} {d : Draft} {g : Graph}

section

variable (mirrors : Mirrors key id d g)
include mirrors

/-- Marking the node as changed takes its snapshot only. -/
theorem touch : Mirrors key id d (g.touch id) := by
  have quiet := Quiet.touch g id
  obtain ⟨n, vals, here, layout, fields, cached, alike⟩ := mirrors.node
  refine ⟨by rw [quiet.schema]; exact mirrors.known, by rw [find?, quiet.index]; exact mirrors.found,
    by rw [(touch_pending g id).1, mirrors.orphans], ?_⟩
  -- Whether the node has a snapshot to lose does not matter here.
  have evicted : (g.touch id).node? id = some n ∨ (g.touch id).node? id = some n.evict := by
    rw [Graph.touch, node?_noteChanges, here]
    split
    · exact Or.inr rfl
    · exact Or.inl rfl
  rcases evicted with there | there
  · exact ⟨n, vals, there, layout, fields, cached, alike⟩
  · exact ⟨n.evict, vals, there, layout, fields, rfl, alike⟩

/-- Replacing a field does what putting it into the draft does. A field that is alike is kept, and is the same. -/
theorem setField {i : Nat} (described : d.layout.fields[i]? = some info) (reflexive : f.same f = true) :
    ∃ g', g.setField id i (Stored.plainField f) = .ok g' ∧ Mirrors key id (d.put i f) g' := by
  obtain ⟨n, vals, here, layout, fields, cached, alike⟩ := mirrors.node
  have inside : i < vals.length := by
    rw [alike.length]
    exact (List.getElem?_eq_some_iff.mp described).1
  have current : n.fields[i]? = some (Stored.plainField vals[i]) := by
    rw [fields, getElem?_map, getElem?_eq_getElem inside, Option.map_some]
  rw [setField_eq here, current]
  dsimp only
  rw [Stored.sameField_plainField]
  split
  · -- The graph keeps its field where the draft takes the new one.
    rename_i same
    have kept := alike.set (i := i) same
    rw [set_getElem_self] at kept
    exact ⟨g, rfl, mirrors.known, mirrors.found, mirrors.orphans, n, vals, here, layout, fields, cached, kept⟩
  · -- Without links on either side, only the field changes.
    refine ⟨_, rfl, touch ?_⟩
    have traded : g.tradeField id i (Stored.plainField vals[i]) (Stored.plainField f) =
        g.update id fun n => { n with fields := n.fields.set i (Stored.plainField f) } := by
      rw [tradeField, Stored.fieldLinks_plainField, Stored.fieldLinks_plainField]
      rfl
    rw [traded]
    refine ⟨by rw [update_schema]; exact mirrors.known, by rw [find?, update_index]; exact mirrors.found,
      by rw [update_orphans]; exact mirrors.orphans,
      { n with fields := n.fields.set i (Stored.plainField f) }, vals.set i f, ?_, layout, ?_, cached,
      alike.set reflexive⟩
    · rw [node?_update, if_pos rfl, here]
      rfl
    · rw [fields, map_set]

/-- A pure derivation that is put into the draft changes nothing that counts. -/
theorem put_pure {i : Nat} (described : d.layout.fields[i]? = some info) (pure : info.isPure = true) (f : Field Value) :
    Mirrors key id (d.put i f) g := by
  obtain ⟨n, vals, here, layout, fields, cached, alike⟩ := mirrors.node
  exact ⟨mirrors.known, mirrors.found, mirrors.orphans, n, vals, here, layout, fields, cached,
    alike.set_pure described pure f⟩

/-- Absorbing the fields of a record from some position on does what taking them over into the draft does. -/
theorem absorbFields {front infos : List FieldInfo} (described : d.layout.fields = front ++ infos)
    (linkless : ∀ info ∈ infos, info.mayLink = false) {news : List (Field Value)}
    (reflexive : ∀ f ∈ news, f.same f = true) (root : NodeId) (depth : Nat) :
    Ends (Graph.absorbFields news infos id root depth front.length) g
      (fun _ g' => Mirrors key id (((infos.zip news).zipIdx front.length).foldl (Draft.mergeField true) d) g')
      fun _ _ => False := by
  -- Both sides go through the fields in step. The draft and the graph change, the layout of the draft does not.
  induction infos generalizing d g front news with
  | nil => rcases news with - | ⟨- | - | v, rest⟩ <;> exact Ends.pure mirrors
  | cons info infos ih =>
    rcases news with - | ⟨f, rest⟩
    · exact Ends.pure mirrors
    have here : d.layout.fields[front.length]? = some info := by simp [described]
    have later : ∀ {d' : Draft} {g' : Graph}, d'.layout = d.layout → Mirrors key id d' g' →
        Ends (Graph.absorbFields rest infos id root depth (front.length + 1)) g'
          (fun _ g'' => Mirrors key id
            (((infos.zip rest).zipIdx (front.length + 1)).foldl (Draft.mergeField true) d') g'')
          fun _ _ => False := by
      intro d' g' layout mirrors'
      have described' : d'.layout.fields = (front ++ [info]) ++ infos := by
        rw [layout, described, append_assoc, singleton_append]
      have others := ih mirrors' described' (fun other member => linkless other (.tail _ member))
        fun other member => reflexive other (.tail f member)
      rwa [length_append] at others
    obtain ⟨g', replaced, mirrors'⟩ := mirrors.setField here (reflexive f (by simp))
    rw [zip_cons_cons, zipIdx_cons, foldl_cons]
    -- An absent field is passed over on both sides, and a pure derivation in the graph only.
    cases f with
    | absent =>
      rw [Graph.absorbFields]
      exact later rfl mirrors
    | null =>
      rw [Graph.absorbFields]
      split
      · rename_i pure
        exact later rfl (mirrors.put_pure here pure .null)
      · exact Ends.bind (Ends.change replaced (later rfl mirrors'))
    | value v =>
      rw [Graph.absorbFields]
      split
      · rename_i pure
        exact later rfl (mirrors.put_pure here pure (.value v))
      · rw [linkless info (by simp)]
        exact Ends.bind (Ends.pure (Ends.bind (Ends.change replaced (later rfl mirrors'))))

end

/-- Once the node of a record is there, absorbing the record does what merging it into the draft does. -/
theorem absorb {parentRoot : Option NodeId} {g₁ : Graph}
    (known : g.schema.type? t.layout.name = some t.layout) (ensured : ensure t.layout t.key parentRoot g = .ok id g₁)
    (mirrors : Mirrors t.key id d g₁) (layout : d.layout = t.layout)
    (linkless : ∀ info ∈ t.layout.fields, info.mayLink = false) (reflexive : ∀ f ∈ t.fields, f.same f = true) :
    Ends (Graph.absorb t parentRoot) g (fun id' g' => id' = id ∧ Mirrors t.key id (d.merge t) g') fun _ _ => False := by
  obtain ⟨n, -, here, -⟩ := mirrors.node
  -- At the top nothing is too deep, the type is known, and the node has a root.
  have shallow : checkDepth 0 = Pure.pure () := if_neg (Nat.not_lt_zero _)
  have asked : g.layout t.layout.name = .ok t.layout := by rw [Graph.layout, known]
  have rooted : g₁.root id = .ok n.root := by
    rw [root, Graph.node, here]
    rfl
  have described : d.layout.fields = [] ++ t.layout.fields := by rw [layout]; rfl
  have same : d.merge t = ((t.layout.fields.zip t.fields).zipIdx).foldl (Draft.mergeField true) d := by
    rw [Draft.merge, layout, decide_eq_true rfl]
  -- All fields are taken over, from the first one on.
  have filled : Ends (Graph.absorbFields t.fields t.layout.fields id n.root 0 0) g₁
      (fun _ g' => Mirrors t.key id (d.merge t) g') fun _ _ => False := by
    rw [same]
    exact mirrors.absorbFields described linkless reflexive n.root 0
  have merged : Ends (absorbAt t parentRoot 0) g (fun id' g' => id' = id ∧ Mirrors t.key id (d.merge t) g')
      fun _ _ => False := by
    rcases t with ⟨own, fields⟩
    rw [absorbAt, shallow]
    refine Ends.bind (Ends.pure (Ends.bind (Ends.ask asked (Ends.bind (Ends.of_ok ensured ?_)))))
    refine Ends.bind (Ends.ask rooted (Ends.bind (filled.mono ?_ fun _ _ => False.elim)))
    exact fun _ g' mirrors' => ⟨rfl, mirrors'⟩
  obtain ⟨id', g', ended, rfl, mirrors'⟩ := merged.exists_ok
  -- Which nodes were made is no part of what is mirrored.
  have noted : Mirrors t.key id' (d.merge t) { g' with created := [] } :=
    ⟨mirrors'.known, mirrors'.found, mirrors'.orphans, mirrors'.node⟩
  have merges : Graph.absorb t parentRoot g = .ok id' { g' with created := [] } := by
    rw [Graph.absorb, ended]
    exact congrArg _ (sweep_eq_self noted.orphans)
  exact Ends.of_ok merges ⟨rfl, noted⟩

/-- Absorbing a further record of the entity does what merging it into the draft does. -/
theorem absorb_next (mirrors : Mirrors key id d g) (same : t.key = key) (layout : t.layout = d.layout)
    (linkless : ∀ info ∈ d.layout.fields, info.mayLink = false) (reflexive : ∀ f ∈ t.fields, f.same f = true)
    (parentRoot : Option NodeId) : Ends (Graph.absorb t parentRoot) g
      (fun id' g' => id' = id ∧ Mirrors key id (d.merge t) g') fun _ _ => False := by
  subst same
  have ensured : ensure t.layout t.key parentRoot g = .ok id g := by simp only [ensure, mirrors.found]
  have known := mirrors.known
  rw [← layout] at known linkless
  exact absorb known ensured mirrors layout.symm linkless reflexive

/-- Absorbing records of the entity, one after the other, does what merging them into the draft does. -/
theorem absorbAll (mirrors : Mirrors key id d g) (linkless : ∀ info ∈ d.layout.fields, info.mayLink = false)
    (each : ∀ t ∈ ts, t.key = key ∧ t.layout = d.layout ∧ ∀ f ∈ t.fields, f.same f = true) :
    Ends (ts.mapM fun t => Graph.absorb t none) g
      (fun ids g' => ids = List.replicate ts.length id ∧ Mirrors key id (ts.foldl Draft.merge d) g')
      fun _ _ => False := by
  induction ts generalizing d g with
  | nil => exact Ends.pure ⟨rfl, mirrors⟩
  | cons t rest ih =>
    obtain ⟨same, layout, reflexive⟩ := each t (by simp)
    rw [mapM_cons]
    refine Ends.bind ((mirrors.absorb_next same layout linkless reflexive none).mono ?_ fun _ _ => False.elim)
    rintro _ g₁ ⟨rfl, mirrors₁⟩
    rw [← Draft.layout_merge d t] at linkless each
    refine Ends.bind ((ih mirrors₁ linkless fun r member => each r (.tail t member)).mono ?_
      fun _ _ => False.elim)
    rintro _ g₂ ⟨rfl, mirrors₂⟩
    exact Ends.pure ⟨rfl, mirrors₂⟩

/-- The first node of a graph mirrors an empty draft. -/
theorem exists_ensure {s : Schema} {l : Layout} (known : s.type? l.name = some l) (key : Key) (maxRounds : Nat) :
    ∃ g, ensure l key none (Graph.empty s maxRounds) = .ok ⟨0, 0⟩ g ∧ Mirrors key ⟨0, 0⟩ (Draft.new l) g := by
  -- The key is not there yet, so the first slot is filled and marked as changed.
  refine ⟨_, rfl, touch ⟨known, ?_, rfl, Node.new l key _, List.replicate l.fields.length .absent, rfl, rfl, ?_, rfl,
    ?_⟩⟩
  · exact lookup_cons_self
  · simp [Node.new, Stored.plainField]
  · refine ⟨rfl, length_replicate, length_replicate, fun i info described _ => ?_⟩
    have absent : (List.replicate l.fields.length Field.absent)[i]?.getD (.absent : Field Value) = .absent := by
      rw [getElem?_replicate]
      split <;> rfl
    show Field.same ((List.replicate l.fields.length .absent)[i]?.getD .absent)
      ((List.replicate l.fields.length .absent)[i]?.getD .absent) = true
    rw [absent]
    rfl

end Mirrors

theorem resolveFields_map_plainField (F : Formulas) (g : Graph) (vals : List (Field Value)) :
    resolveFields F g (vals.map Stored.plainField) = .ok vals := by
  induction vals with
  | nil => rfl
  | cons f rest ih =>
    cases f <;>
      rw [map_cons, Stored.plainField, resolveFields, ih] <;> rfl

/-- A node without links and without a snapshot is built alone. -/
theorem unbuilt_of_linkless {g : Graph} {id : NodeId} {n : Node} (here : g.node? id = some n)
    (cached : n.cached = none) (linkless : n.links = []) : g.unbuilt id = .ok [id] := by
  have asked : g.node id = .ok n := by rw [node, here]
  rw [unbuilt, asked]
  dsimp only [bind, Except.bind]
  split
  · -- The search ends at the node where it starts.
    have searched : g.search (g.slots.length + 1) ⟨[], []⟩ id = .ok ⟨[id], [id]⟩ := by
      rw [search, if_neg (by simp), asked]
      simp only [bind, Except.bind, cached, linkless]
      rfl
    rw [searched]
    rfl
  · rfl

/-- Building the node gives what the draft gives, from values that are the same. -/
theorem Mirrors.build {key : Key} {id : NodeId} {d : Draft} {g : Graph} (mirrors : Mirrors key id d g)
    (F : Formulas) : Ends (Graph.build F id) g
      (fun r _ => ∃ vals, r = RecordOf.derive F ⟨d.layout, vals⟩ ∧ RecordOf.SameState [] ⟨d.layout, vals⟩ d.raw)
      fun _ _ => False := by
  obtain ⟨n, vals, here, layout, fields, cached, alike⟩ := mirrors.node
  have asked : g.node id = .ok n := by rw [Graph.node, here]
  have links : n.links = [] := by rw [Node.links, fields, Stored.fieldLinks_map_plainField]
  have made : g.recordOf F id = .ok (RecordOf.derive F ⟨d.layout, vals⟩) := by
    rw [recordOf, asked]
    dsimp only [bind, Except.bind]
    rw [resolveRecord, fields, layout, resolveFields_map_plainField]
    rfl
  unfold Graph.build
  refine Ends.bind (Ends.ask asked ?_)
  rw [cached]
  -- There is no snapshot, and no other node to build before this one.
  refine Ends.bind (Ends.ask (unbuilt_of_linkless here cached links) (Ends.bind ?_))
  rw [takeSnapshots, takeSnapshots]
  -- The snapshot is kept, and then given out.
  refine Ends.bind (Ends.ask made (Ends.bind (Ends.of_ok rfl (Ends.pure ?_))))
  have kept : (g.update id fun n => { n with cached := some (RecordOf.derive F ⟨d.layout, vals⟩) }).node id =
      .ok { n with cached := some (RecordOf.derive F ⟨d.layout, vals⟩) } := by
    rw [Graph.node, node?_update, if_pos rfl, here]
    rfl
  exact Ends.bind (Ends.ask kept (Ends.pure ⟨vals, rfl, alike⟩))

/-- Absorbing records of one entity without links into a new graph gives one handle each time. Building it gives a
record that is equal in state to what they build to when each is merged into a draft of the first. What no record
declares and no pure derivation fills is absent there. -/
theorem build_absorbed_equals_merged {serial : Nat} {declarations : Declarations} {schema : Schema}
    {F : Formulas} (compiled : Schema.compile serial declarations = .ok schema) {first : Record}
    {others : List Record} (own : ∀ t ∈ first :: others, schema.ownsRecord t = true)
    (layouts : ∀ t ∈ others, t.layout = first.layout) (keys : ∀ t ∈ others, t.key = first.key)
    (linkless : ∀ info ∈ first.layout.fields, info.mayLink = false)
    (steady : ∀ info ∈ first.layout.fields, info.readsItself = false)
    (respect : F.RespectState first.layout) (maxRounds : Nat) :
    ∃ id g snapshot g',
      ((first :: others).mapM fun t => absorb t none) (Graph.empty schema maxRounds) =
        .ok (List.replicate (others.length + 1) id) g ∧
      build F id g = .ok snapshot g' ∧
      snapshot.equals .state ((others.foldl Draft.merge (Draft.ofRecord first)).build F) = true ∧
      ∀ info ∈ first.layout.fields, info.isPure = false → (∀ t ∈ first :: others, t.field info.name = .absent) →
        snapshot.field info.name = .absent := by
  have accepted : schema.Accepted := fun _ _ type => Schema.accepted_of_type? compiled type
  have reflexive : ∀ t ∈ first :: others, ∀ f ∈ t.fields, f.same f = true := fun t member f inside =>
    Field.same_refl accepted ((Schema.ownsRecord_iff.mp (own t member)).2.2 f inside)
  have sized : ∀ t ∈ first :: others, t.fields.length = t.layout.fields.length := fun t member =>
    (Schema.ownsRecord_iff.mp (own t member)).2.1
  have shared : ∀ t ∈ first :: others, t.layout = first.layout := forall_mem_cons.mpr ⟨rfl, layouts⟩
  have type := (Schema.ownsRecord_iff.mp (own first (by simp))).1
  -- The first record makes the node, which mirrors an empty draft, and fills it.
  obtain ⟨g₀, ensured, start⟩ := Mirrors.exists_ensure type first.key maxRounds
  have opened := Mirrors.absorb type ensured start rfl linkless (reflexive first (by simp))
  rw [Draft.new_merge (sized first (by simp))] at opened
  obtain ⟨_, g₁, absorbed, rfl, mirrors₁⟩ := opened.exists_ok
  -- The others change the node as they change the draft.
  have changed := mirrors₁.absorbAll linkless fun t member =>
    ⟨keys t member, layouts t member, reflexive t (.tail first member)⟩
  obtain ⟨_, g, absorbed', rfl, mirrors⟩ := changed.exists_ok
  obtain ⟨_, g', built, vals, rfl, alike⟩ := (mirrors.build F).exists_ok
  have layout := Draft.layout_foldl_merge (Draft.ofRecord first) others
  refine ⟨⟨0, 0⟩, g, _, g', ?_, built, ?_, ?_⟩
  · rw [mapM_cons]
    simp only [bind, EStateM.bind, absorbed, absorbed']
    rfl
  · rw [layout] at alike ⊢
    exact alike.equals_derive (accepted _ _ type) respect steady
  · intro info member impure undeclared
    obtain ⟨i, described⟩ := getElem?_of_mem member
    -- A position that no record declares is absent in the draft, and so in the node.
    have absent : ∀ t ∈ first :: others, t.fields[i]?.getD .absent = .absent := by
      intro t listed
      have same := shared t listed
      rw [← RecordOf.field_name (same ▸ accepted _ _ type) (same ▸ described), undeclared t listed]
    have each : ∀ t ∈ others, t.layout = (Draft.ofRecord first).layout ∧
        t.fields.length = (Draft.ofRecord first).layout.fields.length := by
      intro t listed
      have length := sized t (.tail first listed)
      rw [layouts t listed] at length
      exact ⟨layouts t listed, length⟩
    have fields : (Draft.ofRecord first).fields = first.fields :=
      congrArg RecordOf.fields (Draft.raw_ofRecord ⟨first, sized first (by simp)⟩)
    have merged := Draft.absent_foldl_merge each (fields ▸ absent first (by simp)) fun t listed =>
      absent t (.tail first listed)
    rw [layout] at alike ⊢
    exact alike.absent_derive (accepted _ _ type) described impure merged

end Graph

namespace Parcels

/-- Parcels have a code, which identifies them, a place, a note, a remark, and a label: the note, or else the code. The
tag repeats the label. -/
def parcelType : TypeDecl :=
  ⟨"Parcel", none, [⟨"code", .text, 1, true, false, none, []⟩, ⟨"place", .record "Place", 2, false, false, none, []⟩,
    ⟨"note", .text, 3, false, false, none, []⟩, ⟨"remark", .text, 4, false, false, none, []⟩,
    ⟨"label", .text, 5, false, false, some (.firstOf ["note", "code"]), []⟩,
    ⟨"tag", .text, 6, false, false, some (.computed ["label"] "label"), []⟩]⟩

def placeType : TypeDecl :=
  ⟨"Place", none, [⟨"street", .text, 1, false, false, none, []⟩, ⟨"floor", .int, 2, false, false, none, []⟩]⟩

def declarations : Declarations :=
  ⟨[parcelType, placeType], [], []⟩

def parcelLayout : Layout :=
  declarations.layout 0 [] parcelType [4, 5]

def placeLayout : Layout :=
  declarations.layout 0 [] placeType []

/-- The schema of parcels. -/
def schema : Schema :=
  ⟨0, [parcelLayout, placeLayout], [], []⟩

theorem compile_declarations : Schema.compile 0 declarations = .ok schema := by decide +kernel

/-- Formulas that repeat the field that they are named after. -/
def repeats : Formulas :=
  ⟨fun source read => read source, fun _ _ => .absent⟩

/-- A tag reads the label alone. -/
theorem respectState_repeats : repeats.RespectState parcelLayout := by
  intro f member inputs formula derives read read' same
  have declared : ∀ f ∈ parcelLayout.fields, f.derivation = none ∨
      f.derivation = some (.firstOf ["note", "code"]) ∨ f.derivation = some (.computed ["label"] "label") := by
    decide +kernel
  rcases declared f member with none | first | computed
  · rw [none] at derives
    cases derives
  · rw [first] at derives
    cases derives
  · rw [computed] at derives
    cases derives
    exact same "label" mem_cons_self

/-- A parcel, with its place and note, and with what was derived from them earlier. -/
def parcel (place note label : Field Value) : Record :=
  ⟨parcelLayout, [.value (.text "p"), place, note, .absent, label, label]⟩

/-- A place whose floor may be null or absent, which is the same in state. -/
def place (floor : Field Value) : Field Value :=
  .value (.record ⟨placeLayout, [.value (.text "Elm"), floor]⟩)

/-- A parcel on a floor that is null. -/
def sent : Record :=
  parcel (place .null) .absent (.value (.text "p"))

/-- What is said of it later: a floor that is absent and a blank note, and then a note alone. -/
def updates : List Record :=
  [parcel (place .absent) (.value (.text " ")) .null, parcel .absent (.value (.text "n")) .absent]

/-- The graph keeps the floor that is null where the draft has one that is absent. -/
theorem build_absorbed_equals_merged_parcel : ∃ id g snapshot g',
    ((sent :: updates).mapM fun t => Graph.absorb t none) (Graph.empty schema Graph.defaultRounds) =
      .ok [id, id, id] g ∧
    Graph.build repeats id g = .ok snapshot g' ∧
    snapshot.equals .state ((updates.foldl Draft.merge (Draft.ofRecord sent)).build repeats) = true ∧
    snapshot.field "remark" = .absent := by
  have own : ∀ t ∈ sent :: updates, schema.ownsRecord t = true := by decide +kernel
  obtain ⟨id, g, snapshot, g', absorbed, built, equal, absent⟩ :=
    Graph.build_absorbed_equals_merged compile_declarations own (by decide +kernel) (by decide +kernel)
      (by decide +kernel) (by decide +kernel) respectState_repeats Graph.defaultRounds
  have undeclared : ∀ t ∈ sent :: updates, t.field "remark" = .absent := by
    simp only [updates, forall_mem_cons, not_mem_nil, false_imp_iff, implies_true, and_true]
    exact ⟨rfl, rfl, rfl⟩
  exact ⟨id, g, snapshot, g', absorbed, built, equal,
    absent ⟨⟨"remark", .text, 4, false, false, none, []⟩, false, false⟩ (by decide) rfl undeclared⟩

end Parcels

end EntityGraph
