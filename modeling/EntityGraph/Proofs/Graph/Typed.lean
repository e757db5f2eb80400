import EntityGraph.Proofs.Graph.Acts
import EntityGraph.Proofs.Graph.Origins
import EntityGraph.Proofs.Graph.Reachable
import EntityGraph.Proofs.Schema.References

/-! Nodes have the types of the schema: a node of a type that holds no identifiable records has no links, as long as
derivations give what their fields can hold and keys tell types apart. -/

namespace EntityGraph

open List

variable {n : Node}

namespace Stored

variable {v : Value} {s : Stored}

/-- A value that does not become a node is stored without links if the values inside it are. -/
theorem links_eq_nil_of_inner {find : Key → Option NodeId} (part : v.isNode = false) (stored : ofValue? find v = some s)
    (none : ∀ w ∈ v.inner, ∀ t, ofValue? find w = some t → t.links = []) : s.links = [] := by
  obtain ⟨images, links⟩ := inner_ofValue? part stored
  refine eq_nil_iff_forall_not_mem.mpr fun c link => ?_
  obtain ⟨t, there, link⟩ := (links c).mp link
  obtain ⟨w, here, image⟩ := exists_mem_of_forall₂ images there
  rw [none w here t image] at link
  cases link

section conforms

variable {serial : Nat} {d : Declarations} {schema : Schema} (compiled : Schema.compile serial d = .ok schema)
  {find : Key → Option NodeId} {k : Kind} (leaf : ∀ name ∈ References.ofKind d k, ∀ l, schema.type? name = some l →
    l.identifiable = false ∧ l.containsIdentifiable = false)

include compiled leaf

theorem ofValue?_of_conforms {r : Record} (conforms : k.conforms schema schema.declares (.record r) = true) :
    ofValue? find (.record r) = some (.plain (.record r)) := by
  obtain ⟨listed, own⟩ := Kind.reference_of_conforms compiled conforms
  obtain ⟨anonymous, empty⟩ := leaf _ listed r.layout (by simpa [Schema.declares] using own)
  rw [ofValue?, anonymous, empty]
  rfl

/-- A value of the schema's own records is stored without links where its kind allows none. -/
theorem links_eq_nil_of_conforms (conforms : k.conforms schema schema.declares v = true)
    (stored : ofValue? find v = some s) : s.links = [] := by
  induction k generalizing v s with
  | record name =>
    cases v with
    | record r =>
      rw [ofValue?_of_conforms compiled leaf conforms] at stored
      cases stored
      rw [links]
    | _ => cases conforms
  | openType name =>
    cases v with
    | record r =>
      rw [ofValue?_of_conforms compiled leaf conforms] at stored
      cases stored
      rw [links]
    | unknown u =>
      simp only [ofValue?, Option.some.injEq] at stored
      rw [← stored, links]
    | _ => cases conforms
  | list k ih =>
    cases v with
    | list items =>
      refine links_eq_nil_of_inner rfl stored fun w there _ image => ih leaf ?_ image
      obtain ⟨item, member, rfl⟩ := mem_filterMap.mp there
      exact all_eq_true.mp conforms _ member
    | _ => cases conforms
  | map k ih =>
    cases v with
    | map entries =>
      refine links_eq_nil_of_inner rfl stored fun w there _ image => ih leaf ?_ image
      obtain ⟨⟨key, item⟩, member, rfl⟩ := mem_filterMap.mp there
      exact all_eq_true.mp conforms _ member
    | _ => cases conforms
  | _ =>
    cases v <;> try (cases conforms; done)
    all_goals
      simp only [ofValue?, Option.some.injEq] at stored
      rw [← stored, links]

end conforms

end Stored

/-- A record that the act meets is known. -/
def Act.Knows (known : Record → Prop) : Act → Prop
  | .meet r => known r
  | .write _ => True

instance (known : Record → Prop) [DecidablePred known] (act : Act) : Decidable (act.Knows known) :=
  match act with
  | .meet r => inferInstanceAs (Decidable (known r))
  | .write _ => inferInstanceAs (Decidable True)

/-- Keys of the given records tell their types apart. -/
def KeysTellTypes (known : Record → Prop) : Prop :=
  ∀ a b, known a → known b → a.key = b.key → a.typeName = b.typeName

/-- The node has a layout of the schema and the type of a known record, a field for each position, and no links if its
type holds no identifiable records. -/
structure Node.Typed (schema : Schema) (known : Record → Prop) (n : Node) : Prop where
  layout : schema.type? n.layout.name = some n.layout
  entity : ∃ a, known a ∧ a.key = n.key ∧ a.typeName = n.layout.name
  length : n.fields.length = n.layout.fields.length
  leaf : n.layout.containsIdentifiable = false → n.links = []

/-- What makes a node typed are its layout, its key and its fields. -/
theorem Node.Typed.congr {schema : Schema} {known : Record → Prop} {n' : Node} (typed : n.Typed schema known)
    (layout : n'.layout = n.layout) (key : n'.key = n.key) (fields : n'.fields = n.fields) :
    n'.Typed schema known where
  layout := by rw [layout]; exact typed.layout
  entity := by rw [layout, key]; exact typed.entity
  length := by rw [layout, fields]; exact typed.length
  leaf := by rw [layout, Node.links, fields]; exact typed.leaf

namespace Graph

open Step

variable {known : Record → Prop} {act : Act}

/-- All nodes are typed by known records. -/
def Typed (known : Record → Prop) (g : Graph) : Prop :=
  Nodes (Node.Typed g.schema known) g

/-- Every node of the second graph is one of the first, with the same type, key and fields. -/
structure Survives (g g' : Graph) : Prop where
  schema : g'.schema = g.schema
  nodes : ∀ id n', g'.node? id = some n' →
    ∃ n, g.node? id = some n ∧ n'.layout = n.layout ∧ n'.key = n.key ∧ n'.fields = n.fields

namespace Survives

variable {g g' : Graph}

theorem of_framed (framed : Framed g g') : Survives g g' := by
  refine ⟨framed.schema, fun id n' live => ?_⟩
  obtain ⟨n, there, core⟩ := framed.cores.symm.exists_live live
  refine ⟨n, there, ?_, ?_, ?_⟩
  · simpa [Node.core] using (congrArg Node.layout core).symm
  · simpa [Node.core] using (congrArg Node.key core).symm
  · simpa [Node.core] using (congrArg Node.fields core).symm

theorem of_swept (swept : Swept g g') : Survives g g' := by
  refine ⟨swept.schema, fun id n' live => ?_⟩
  have kept := ((swept.contains_iff id).mp (contains_iff.mpr ⟨n', live⟩)).2
  have lone := swept.kept id kept
  rw [live, Option.map_some, eq_comm, Option.map_eq_some_iff] at lone
  obtain ⟨n, there, same⟩ := lone
  refine ⟨n, there, ?_, ?_, ?_⟩
  · simpa [Node.lone] using (congrArg Node.layout same).symm
  · simpa [Node.lone] using (congrArg Node.key same).symm
  · simpa [Node.lone] using (congrArg Node.fields same).symm

theorem of_holds (g : Graph) (id : NodeId) (f : Nat → Nat) :
    Survives g (g.update id fun n => { n with holds := f n.holds }) := by
  refine ⟨by simp, fun j n' live => ?_⟩
  rw [node?_update] at live
  split at live
  · rename_i same
    obtain ⟨n, there, rfl⟩ := Option.map_eq_some_iff.mp live
    exact ⟨n, by rw [same]; exact there, rfl, rfl, rfl⟩
  · exact ⟨n', live, rfl, rfl, rfl⟩

end Survives

theorem Typed.survives {g g' : Graph} (typed : Typed known g) (survives : Survives g g') : Typed known g' := by
  intro id n' live
  obtain ⟨n, there, layout, key, fields⟩ := survives.nodes id n' live
  rw [survives.schema]
  exact (typed id n there).congr layout key fields

theorem Typed.leafy {g : Graph} (typed : Typed known g) : Leafy g :=
  fun id n live => (typed id n live).leaf

/-- What may be done to typed nodes: known records are met, and what is written to a node is a field of a known record
of its entity, or a value that the field can hold. -/
def Fits (known : Record → Prop) (g : Graph) : Act → Prop
  | .meet r => known r
  | .write w => (∃ r, known r ∧ w.Of g.schema r) ∨
    ∃ id n, g.find? w.key = some id ∧ g.node? id = some n ∧ ∀ info, n.layout.fields[w.position]? = some info →
      ∀ v, w.field = .value v → info.kind.conforms g.schema g.schema.declares v = true

/-- What may be done stays so while handles stay live. -/
theorem Fits.grows {g g' : Graph} (fits : Fits known g act) (grows : Grows g g')
    (finds : Finds g.find? g'.find?) : Fits known g' act := by
  cases act with
  | meet r => exact fits
  | write w =>
    rcases fits with ⟨r, given, of⟩ | ⟨id, n, found, live, conforms⟩
    · exact Or.inl ⟨r, given, by rw [grows.schema]; exact of⟩
    · obtain ⟨n', live', stays⟩ := grows.live id n live
      refine Or.inr ⟨id, n', finds _ _ found, live', ?_⟩
      rw [stays.layout, grows.schema]
      exact conforms

section does

variable {serial : Nat} {d : Declarations} {g g' : Graph} {acts : List Act}

section

variable (compiled : Schema.compile serial d = .ok g.schema)
include compiled

/-- A write that fits brings no links to a node whose type holds no identifiable records. -/
theorem Fits.links_eq_nil (apart : KeysTellTypes known) {w : Write} (fits : Fits known g (.write w)) {id : NodeId}
    (owner : g.find? w.key = some id) (live : g.node? id = some n) (key : n.key = w.key)
    (typed : n.Typed g.schema known) (leaf : n.layout.containsIdentifiable = false) {incoming : Field Stored}
    (image : w.image? g.find? = some incoming) (inside : w.position < n.fields.length) :
    Stored.fieldLinks [incoming] = [] := by
  have unlinked : ∀ info ∈ n.layout.fields, info.mayLink = false := fun info member =>
    Schema.mayLink_eq_false compiled typed.layout leaf member
  by_contra some_
  obtain ⟨c, link⟩ := exists_mem_of_ne_nil _ some_
  obtain ⟨linking, -⟩ := Write.links_image? g.schema image link
  rcases fits with ⟨r, given, of⟩ | ⟨id', n', found, live', conforms⟩
  · -- The record has the type of the node, and its field links as the node's does.
    obtain ⟨a, givenₐ, keyₐ, name⟩ := typed.entity
    have same : r.typeName = n.layout.name := by
      rw [← name]
      exact apart r a given givenₐ (by rw [← of.key, keyₐ, key])
    obtain ⟨info, there, -, links⟩ := of.info
    rw [Schema.fieldsOf, same, typed.layout] at there
    rw [links, unlinked info (mem_of_getElem? there)] at linking
    cases linking
  · rw [owner] at found
    cases found
    rw [live] at live'
    cases live'
    -- The value that is written is one that the field can hold, and that has no links.
    rw [typed.length] at inside
    have there := getElem?_eq_getElem inside
    have member := mem_of_getElem? there
    rcases w with ⟨_, position, field, _⟩
    cases linking
    cases field with
    | absent => cases image; simp [Stored.fieldLinks] at link
    | null => cases image; simp [Stored.fieldLinks] at link
    | value v =>
      obtain ⟨s, stored, rfl⟩ := Option.map_eq_some_iff.mp image
      have none := Stored.links_eq_nil_of_conforms compiled (fun name listed l found =>
        Schema.leaf_of_mayLink compiled typed.layout member (unlinked _ member) listed found)
        (conforms _ there v rfl) stored
      simp [Stored.fieldLinks, none] at link

/-- An act that fits keeps all nodes typed. -/
theorem Typed.does (apart : KeysTellTypes known) (typed : Typed known g) (sound : Sound g) (fits : Fits known g act)
    (does : Does g act g') : Typed known g' := by
  rw [Typed, (does.edits sound |>.sound sound).2.schema]
  have loose : Loose (Node.Typed g.schema known) := ⟨fun _ _ typed => typed.congr rfl rfl rfl,
    fun _ _ typed => typed.congr rfl rfl rfl, fun _ typed => typed.congr rfl rfl rfl⟩
  refine Nodes.does loose sound ?_ does
  intro j n origin
  cases origin with
  | kept live => exact typed j n live
  | made type =>
    -- The new node has the type of its record and no links yet.
    have name := Schema.name_of_type? type
    exact ⟨by rw [Node.new, name]; exact type, ⟨_, fits, rfl, name.symm⟩, by simp [Node.new],
      fun _ => by rw [Node.new, Node.links, Stored.fieldLinks_replicate]⟩
  | @wrote w _ n incoming owner live image =>
    -- One field is replaced, and the links of a new field are those of what is written.
    have before := typed j n live
    refine ⟨before.layout, before.entity, by rw [Stored.length_put]; exact before.length, fun leaf => ?_⟩
    have none := before.leaf leaf
    rw [Node.links] at none
    rw [Node.links, eq_nil_iff_forall_not_mem]
    intro c link
    by_cases inside : w.position < n.fields.length
    · rcases Stored.mem_links_put link with old | new
      · rw [none] at old
        cases old
      · obtain ⟨m, there, key⟩ := sound.toArena.of_find? owner
        rw [live] at there
        cases there
        rw [fits.links_eq_nil compiled apart owner live key before leaf image inside] at new
        cases new
    · rw [Stored.put, getElem?_eq_none (by omega), none] at link
      cases link

/-- Acts that fit keep all nodes typed. -/
theorem Typed.performs (apart : KeysTellTypes known) (typed : Typed known g) (sound : Sound g)
    (fits : ∀ act ∈ acts, Fits known g act) (performs : Performs acts g g') : Typed known g' := by
  induction performs with
  | nil => exact typed
  | @cons act acts g g₁ g' first _ ih =>
    obtain ⟨sound₁, grows, finds⟩ := (Performs.single first).sound sound
    refine ih (by rw [grows.schema]; exact compiled)
      (typed.does compiled apart sound (fits act mem_cons_self) first) sound₁ fun other member => ?_
    exact (fits other (.tail _ member)).grows grows finds

end

theorem fits_of_tidy (tidy : Acts.Tidy g.schema acts) (met : ∀ act ∈ acts, act.Knows known) :
    ∀ act ∈ acts, Fits known g act := by
  intro act member
  cases act with
  | meet r => exact met _ member
  | write w =>
    obtain ⟨r, there, of⟩ := tidy.sourced w member
    exact Or.inl ⟨r, met _ there, of⟩

end does

end Graph

end EntityGraph
