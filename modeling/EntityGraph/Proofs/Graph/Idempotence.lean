import EntityGraph.Proofs.Graph.Canonical
import EntityGraph.Proofs.Graph.Failure
import EntityGraph.Proofs.Graph.Release
import EntityGraph.Proofs.Graph.Trailing

/-! Absorbing a current snapshot: in a graph that has settled, every entity without a cycle below it can be built and
absorbed again, which gives its handle and changes nothing, unless the snapshot is nested too deep. -/

namespace EntityGraph

open List

variable {incoming : Field Stored} {info : FieldInfo} {w : Write}

/-- The value is a list or a map. -/
def Value.isCollection : Value → Bool
  | .list _ | .map _ => true
  | _ => false

/-- A value that its kind allows, and that is no list or map, is stored as it is where no links are possible. -/
theorem Stored.isImage_of_conforms {serial : Nat} {d : Declarations} {s : Schema}
    (compiled : Schema.compile serial d = .ok s) {l : Layout} (type : s.type? l.name = some l)
    (member : info ∈ l.fields) (own : s.ownsField w.field = true)
    (conforms : ∀ v, w.field = .value v → info.kind.conforms s s.declares v = true)
    (linking : w.linking = true) (single : info.mayLink = false → ∀ v, w.field = .value v → v.isCollection = false)
    {find : Key → Option NodeId} (image : w.image? find = some incoming) : IsImage s info.mayLink incoming := by
  cases unlinked : info.mayLink with
  | true => exact ⟨w, find, linking, own, image⟩
  | false =>
    -- It is what would be stored without looking for links.
    suffices plain : incoming = plainField w.field by
      refine ⟨{ w with linking := false }, find, rfl, own, ?_⟩
      rw [plain]
      rcases w with ⟨key, position, field, linking⟩
      cases field <;> rfl
    rcases w with ⟨key, position, field, linking⟩
    cases linking
    cases field with
    | absent => cases image; rfl
    | null => cases image; rfl
    | value v =>
      obtain ⟨st, stored, rfl⟩ := Option.map_eq_some_iff.mp image
      have shape := conforms v rfl
      have alone := single unlinked v rfl
      have leaf : ∀ name ∈ References.ofKind d info.kind, ∀ l, s.type? name = some l →
          l.identifiable = false ∧ l.containsIdentifiable = false := fun name listed l found =>
        Schema.leaf_of_mayLink compiled type member unlinked listed found
      cases v with
      | record r =>
        rw [ofValue?_of_conforms compiled leaf shape] at stored
        cases stored
        rfl
      | list => cases alone
      | map => cases alone
      | _ =>
        simp only [ofValue?, Option.some.injEq] at stored
        subst stored
        rfl

namespace Graph

open Step

variable {id : NodeId} {n : Node} {act : Act} {acts : List Act} {r : Record}

/-- What may be done to a graph whose fields are all stored as merging stores them: known records are met, and what is
written is an own field in which known records are met, and is stored as merging stores a field of that kind. -/
def Suits (s : Schema) (known : Record → Prop) (g : Graph) : Act → Prop
  | .meet r => known r
  | .write w => s.ownsField w.field = true ∧
    (w.linking = true → ∀ act ∈ Acts.ofField s w.field, act.Knows known) ∧
    ((∃ r, known r ∧ w.Of s r) ∨ ∃ id n, g.find? w.key = some id ∧ g.node? id = some n ∧
      ∀ info, n.layout.fields[w.position]? = some info → ∀ find incoming, w.image? find = some incoming →
        Stored.IsImage s info.mayLink incoming)

section suits

variable {s : Schema} {known : Record → Prop} {g g' : Graph}

/-- It stays so while handles stay live. -/
theorem Suits.grows (suits : Suits s known g act) (grows : Grows g g') (finds : Finds g.find? g'.find?) :
    Suits s known g' act := by
  cases act with
  | meet r => exact suits
  | write w =>
    obtain ⟨own, met, sourced | ⟨id, n, found, live, image⟩⟩ := suits
    · exact ⟨own, met, Or.inl sourced⟩
    · obtain ⟨n', live', stays⟩ := grows.live id n live
      exact ⟨own, met, Or.inr ⟨id, n', finds _ _ found, live', by rw [stays.layout]; exact image⟩⟩

/-- What absorbing known records does suits. -/
theorem suits_of_tidy (distinct : Distinct s known) (tidy : Acts.Tidy s acts)
    (met : ∀ act ∈ acts, act.Knows known) (g : Graph) : ∀ act ∈ acts, Suits s known g act := by
  intro act member
  cases act with
  | meet r => exact met _ member
  | write w =>
    obtain ⟨r, there, of⟩ := tidy.sourced w member
    refine ⟨ownsField_of_tidy distinct.own tidy met w member, fun linking other inside => ?_,
      Or.inl ⟨r, met _ there, of⟩⟩
    -- What storing the field meets is met before the field is written.
    exact met other (by simpa using (tidy.ready []).of_write member linking inside)

/-- A node of the schema that is found under the key of a known record has the layout of the record. -/
theorem Typed.layout_eq (distinct : Distinct s known) (same : g.schema = s) (typed : Typed known g)
    (live : g.node? id = some n) (given : known r) (key : n.key = r.key) : n.layout = r.layout := by
  have node := typed id n live
  rw [same] at node
  obtain ⟨a, givenₐ, keyₐ, name⟩ := node.entity
  have type := (Schema.ownsRecord_iff.mp (distinct.own r given)).1
  have names : a.typeName = r.typeName := (distinct.apart a r givenₐ given (keyₐ.trans key)).1
  rw [name] at names
  exact Option.some.inj (node.layout.symm.trans (by rw [names]; exact type))

/-- What a written field links to is a node of an identifiable type. -/
theorem Suits.identifiable_of_image (suits : Suits s known g (.write w)) (distinct : Distinct s known)
    (same : g.schema = s) (typed : Typed known g) (sound : Sound g) (image : w.image? g.find? = some incoming)
    {c : NodeId} (link : c ∈ Stored.fieldLinks [incoming]) (live : g.node? c = some n) :
    n.layout.identifiable = true := by
  obtain ⟨linking, r, met, identifiable, found⟩ := Write.links_image? s image link
  obtain ⟨n', there, key⟩ := sound.toArena.of_find? found
  rw [live] at there
  cases there
  rw [typed.layout_eq distinct same live (suits.2.1 linking _ met) key]
  exact identifiable

end suits

namespace Canonical

variable {serial : Nat} {d : Declarations} {F : Formulas} {s : Schema} {known : Record → Prop} {g g' : Graph}

/-- It is a matter of the nodes' types and fields. -/
theorem survives (canonical : Canonical s g) (survives : Survives g g') : Canonical s g' where
  fields := fun id n' live => by
    obtain ⟨n, there, layout, -, fields⟩ := survives.nodes id n' live
    rw [layout, fields]
    exact canonical.fields id n there
  links := fun p c n' link live => by
    obtain ⟨n, there, layout, -⟩ := survives.nodes c n' live
    -- The node that links has its fields from before.
    cases owner : g'.node? p with
    | none => simp [outgoing, owner] at link
    | some m' =>
      obtain ⟨m, before, -, -, fields⟩ := survives.nodes p m' owner
      rw [outgoing_of_live owner, Node.links, fields] at link
      rw [layout]
      exact canonical.links p c n (by rw [outgoing_of_live before]; exact link) there

theorem sweep (canonical : Canonical s g) (sound : Sound g) (orphans created : List NodeId) :
    Canonical s (Graph.sweep { g with orphans := orphans, created := created }) := by
  have pending : Quiet g { g with orphans := orphans, created := created } := .pending g _ _ _
  exact (canonical.survives (.of_framed pending.toFramed)).survives (.of_swept (sound.quiet pending).sweep)

section does

variable (canonical : Canonical s g) (distinct : Distinct s known) (same : g.schema = s) (typed : Typed known g)
  (sound : Sound g)

include canonical distinct same typed sound

/-- A field that is written is one that merging could have stored. -/
theorem isImage_put (suits : Suits s known g (.write w)) (owner : g.find? w.key = some id) (live : g.node? id = some n)
    (image : w.image? g.find? = some incoming) {i : Nat} {f : Field Stored} (there : n.layout.fields[i]? = some info)
    (field : (Stored.put n.fields w.position incoming)[i]? = some f) : Stored.IsImage s info.mayLink f := by
  by_cases here : w.position = i
  · subst here
    cases before : n.fields[w.position]? with
    | none =>
      rw [Stored.put, before] at field
      exact canonical.fields id n live _ info f there field
    | some current =>
      rcases Stored.getElem?_put before incoming with new | ⟨old, -⟩
      · rw [new] at field
        cases field
        obtain ⟨own, -, ⟨r, given, of⟩ | ⟨id', n', found, live', stored⟩⟩ := suits
        · -- The record has the layout of the node, so its field links as the node's does.
          obtain ⟨n', there', key⟩ := sound.toArena.of_find? owner
          rw [live] at there'
          cases there'
          have layout := typed.layout_eq distinct same live given (key.trans of.key)
          obtain ⟨info', described, -, links⟩ := of.info
          have type := (Schema.ownsRecord_iff.mp (distinct.own r given)).1
          rw [Schema.fieldsOf, show s.type? r.typeName = some r.layout from type] at described
          rw [layout] at there
          cases described.symm.trans there
          exact ⟨w, g.find?, links, own, image⟩
        · rw [owner] at found
          cases found
          rw [live] at live'
          cases live'
          exact stored info there _ _ image
      · rw [old] at field
        cases field
        exact canonical.fields id n live _ info _ there before
  · rw [Stored.getElem?_put_ne here] at field
    exact canonical.fields id n live i info f there field

/-- An act that suits keeps it. -/
theorem does (suits : Suits s known g act) (does : Does g act g') : Canonical s g' where
  fields := fun id n' live i info f there field => by
    obtain ⟨n, origin, lone⟩ := does.origin sound live
    obtain ⟨layout, -, fields, -⟩ := same_of_lone lone
    rw [layout] at there
    rw [fields] at field
    cases origin with
    | kept before => exact canonical.fields id n before i info f there field
    | @made r =>
      rw [Node.new] at field
      obtain rfl := eq_of_mem_replicate (mem_of_getElem? field)
      exact ⟨⟨r.key, 0, .absent, info.mayLink⟩, fun _ => none, rfl, rfl, rfl⟩
    | wrote owner before image =>
      exact canonical.isImage_put distinct same typed sound suits owner before image there field
  links := fun p c n' link live => by
    have grows := ((Performs.single does).sound sound).2.1
    -- What is linked to was live before, with the layout that it has.
    cases owner : g'.node? p with
    | none => simp [outgoing, owner] at link
    | some m' =>
      obtain ⟨m, origin, lone⟩ := does.origin sound owner
      rw [outgoing_of_live owner, Node.links, (same_of_lone lone).2.2.1] at link
      obtain ⟨n, before⟩ := contains_iff.mp (origin.links_live sound link)
      obtain ⟨n'', after, stays⟩ := grows.live c n before
      rw [live] at after
      cases after
      rw [stays.layout]
      have old : ∀ {q : Node}, g.node? p = some q → c ∈ q.links → n.layout.identifiable = true := fun there link =>
        canonical.links p c n (by rwa [outgoing_of_live there]) before
      cases origin with
      | kept there => exact old there link
      | made =>
        rw [Node.new, Stored.fieldLinks_replicate] at link
        cases link
      | wrote _ there image =>
        rcases Stored.mem_links_put link with kept | added
        · exact old there kept
        · exact suits.identifiable_of_image distinct same typed sound image added before

end does

/-- Acts that suit keep it. -/
theorem performs (canonical : Canonical s g) (compiled : Schema.compile serial d = .ok s) (distinct : Distinct s known)
    (same : g.schema = s) (typed : Typed known g) (sound : Sound g) (fits : ∀ act ∈ acts, Fits known g act)
    (suits : ∀ act ∈ acts, Suits s known g act) (performs : Performs acts g g') : Canonical s g' := by
  induction performs with
  | nil => exact canonical
  | @cons act acts g g₁ g' first _ ih =>
    obtain ⟨sound₁, grows, finds⟩ := (Performs.single first).sound sound
    have compiled' : Schema.compile serial d = .ok g.schema := by rw [same]; exact compiled
    -- Types are kept along with the forms of fields, since each act relies on both.
    refine ih (canonical.does distinct same typed sound (suits act mem_cons_self) first)
      (grows.schema.trans same) (typed.does compiled' distinct.types sound (fits act mem_cons_self) first) sound₁
      (fun other member => (fits other (.tail _ member)).grows grows finds)
      fun other member => (suits other (.tail _ member)).grows grows finds

end Canonical

/-- A derived field can be merged again as it is stored: it is the schema's own, and no list or map where the field
cannot link. -/
def Mergeable (s : Schema) (g : Graph) (e : Task × Field Value) : Prop :=
  s.ownsField e.2 = true ∧ ∀ n ∈ g.node? e.1.id, ∀ info ∈ n.layout.fields[e.1.field]?, info.mayLink = false →
    ∀ v ∈ e.2.value?, v.isCollection = false

/-- Everything settles, with derived values that their fields accept, and yet the snapshot of the first node changes
something when it is absorbed again. -/
def Disturbs (F : Formulas) (g : Graph) : Prop :=
  (∀ e ∈ derivedAt F g, ∀ n ∈ g.node? e.1.id, ∀ info ∈ n.layout.fields[e.1.field]?, ∀ v ∈ e.2.value?,
    info.kind.accepts v = true) ∧
  ((settle F).run' g).isSome = true ∧ ((settle F).after g).changed = [] ∧
  ((build F ⟨0, 0⟩).run' ((settle F).after g)).map
    (fun r => ((absorb r none).after ((settle F).after g)).changed) = some [⟨0, 0⟩]

instance (F : Formulas) (g : Graph) : Decidable (Disturbs F g) :=
  inferInstanceAs (Decidable (_ ∧ _))

/-- Tags are texts in a list, so that they cannot link, and are derived. -/
def tagType : TypeDecl :=
  ⟨"Tagged", none, [⟨"id", .text, 1, true, false, none, []⟩,
    ⟨"tags", .list .text, 2, false, false, some (.contextual "tags"), []⟩]⟩

def tagLayout : Layout :=
  Declarations.layout ⟨[tagType], [], []⟩ 0 [] tagType []

/-- The formulas that derive one tag. -/
def tagging : Formulas :=
  ⟨fun _ _ => .absent, fun _ _ => .value (.list [some (.text "new")])⟩

def tagGraph : Graph :=
  (absorb ⟨tagLayout, [.value (.text "a"), .absent]⟩ none).after (Graph.empty ⟨0, [tagLayout], [], []⟩ defaultRounds)

def holderGraph : Graph :=
  (absorb newHolder none).after (Graph.empty ownerSchema defaultRounds)

/-- Both conditions are needed: what cannot link is absorbed as it is, but a derived list is stored element by element,
and a derived record that is an entity in another schema as a link. -/
theorem disturbs_of_not_mergeable :
    (Disturbs tagging tagGraph ∧ ∀ e ∈ derivedAt tagging tagGraph, tagGraph.schema.ownsField e.2 = true) ∧
    Disturbs (giving (partOf 1 true "p")) holderGraph ∧
      ∀ e ∈ derivedAt (giving (partOf 1 true "p")) holderGraph, ∀ v ∈ e.2.value?, v.isCollection = false := by
  decide +kernel

/-- The operations of a run that meets known records only, in which settling succeeds, and whose derivations conform to
their fields and can be merged again. -/
def Steady (F : Formulas) (s : Schema) (known : Record → Prop) (g : Graph) : Operation → Prop
  | .settle contextual => ((settle (F.withContextual contextual)).run' g).isSome = true ∧
    ∀ h ∈ roundStarts (F.withContextual contextual) g.maxRounds g,
      ∀ e ∈ derivedAt (F.withContextual contextual) h,
        Conforms s s.declares known h e ∧ Mergeable s h e
  | op => Conforming F s s.declares known g op

section steady

variable {F : Formulas} {s : Schema} {known : Record → Prop} {g : Graph} {op : Operation}

theorem Steady.settles (steady : Steady F s known g op) : op.Settles F g := by
  cases op with
  | settle contextual => exact steady.1
  | _ => trivial

/-- No round of a run fails in which settling succeeds. -/
theorem Steady.unfailing (steady : Steady F s known g op) : Unfailing F s known g op := by
  cases op with
  | settle contextual =>
    refine ⟨fun h member e derived => (steady.2 h member e derived).1, fun h member => ?_⟩
    obtain ⟨diff, run⟩ := Option.isSome_iff_exists.mp steady.1
    have ends := @settle_runs (F.withContextual contextual) g (fun _ _ => True) trivial fun h _ _ _ => by
      unfold Ends
      cases round (F.withContextual contextual) h <;> trivial
    rw [Ends, eq_ok_of_run' run] at ends
    obtain ⟨-, diff', h', done⟩ := ends.2.2 h member
    rw [run'_of_ok done]
    rfl
  | _ => exact steady

end steady

namespace Canonical

variable {serial : Nat} {d : Declarations} {F : Formulas} {s : Schema} {known : Record → Prop} {g : Graph}

section run

variable (canonical : Canonical s g) (compiled : Schema.compile serial d = .ok s)
  (distinct : Distinct s known) (conformed : Conformed F s known g)

include canonical compiled distinct conformed

/-- Absorbing known records keeps it, also if it fails. -/
theorem absorb (met : ∀ act ∈ Acts.ofRecord s r, act.Knows known) (parentRoot : Option NodeId) :
    Canonical s ((Operation.absorb r parentRoot).apply F g) := by
  have same := conformed.schema_eq
  have sound := conformed.sound
  have tidy := Acts.tidy_ofRecord s r
  have fits : ∀ act ∈ Acts.ofRecord s r, Fits known g act :=
    same ▸ fits_of_tidy (same.symm ▸ tidy) (same.symm ▸ met)
  have suits := suits_of_tidy distinct tidy met g
  refine Operation.apply_absorb sound fun done merged _ first performs => ?_
  rw [same] at first
  have merged_ := canonical.performs compiled distinct same conformed.typed sound
    (fun act member => fits act (first.subset member)) (fun act member => suits act (first.subset member)) performs
  exact merged_.sweep (performs.sound sound).1 _ _

/-- A round whose results conform and can be merged again keeps it. -/
theorem round (results : ∀ e ∈ derivedAt F g, Conforms s s.declares known g e ∧ Mergeable s g e) :
    Ends (Graph.round F) g (fun _ g' => Canonical s g') fun _ _ => True := by
  obtain ⟨diff, g₁, derived, sound₁, ends⟩ := conformed.sound.round_parts F
  have conformed₁ := conformed.derived derived
  have fits := conformed.fits_results derived fun e listed => (results e listed).1
  refine ends.mono ?_ fun _ _ _ => trivial
  rintro _ g' ⟨-, merged, performs, rfl⟩
  refine ((canonical.survives (.of_framed derived.toFramed)).performs compiled distinct conformed₁.schema_eq
    conformed₁.typed sound₁ fits ?_ performs).survives (.of_swept (performs.sound sound₁).1.sweep)
  intro act member
  rw [conformed₁.schema_eq] at member
  obtain ⟨e, listed, among⟩ := mem_flatMap.mp member
  obtain ⟨⟨met, shape⟩, own, single⟩ := results e listed
  rcases mem_append.mp among with stored | written
  · exact suits_of_tidy distinct (Acts.tidy_ofField s e.2) met g₁ act stored
  · -- What is derived is written to the field that it was derived for.
    cases mem_singleton.mp written
    obtain ⟨n', live'⟩ := contains_iff.mp (derived.live e listed)
    obtain ⟨n, live, core⟩ := derived.cores.symm.exists_live live'
    have layout : n.layout = n'.layout := by simpa [Node.core] using congrArg Node.layout core
    have type := (conformed₁.typed e.1.id n' live').layout
    rw [conformed₁.schema_eq] at type
    refine ⟨own, fun _ => met, Or.inr ⟨e.1.id, n', sound₁.toArena.find?_keyOf (derived.live e listed), live', ?_⟩⟩
    intro info there find incoming image
    have there' : n.layout.fields[e.1.field]? = some info := by rw [layout]; exact there
    exact Stored.isImage_of_conforms compiled type (mem_of_getElem? there) own
      (fun v same => shape n live info there' v (by rw [show e.2 = .value v from same]; rfl)) rfl
      (fun unlinked v same => single n live info there' unlinked v (by rw [show e.2 = .value v from same]; rfl)) image

/-- Every operation of a steady run keeps it. -/
theorem apply {op : Operation} (steady : Steady F s known g op) : Canonical s (op.apply F g) := by
  have sound := conformed.sound
  cases op with
  | absorb r parentRoot => exact canonical.absorb compiled distinct conformed steady parentRoot
  | retain id => exact Operation.apply_retain canonical fun _ => canonical.survives (.of_holds g id (· + 1))
  | release id =>
    -- Without its last hold the node may be swept away.
    have survives := canonical.survives (.of_holds g id (· - 1))
    exact Operation.apply_release canonical fun _ => survives.sweep (sound.holds id (· - 1)) _ _
  | build id =>
    exact Operation.apply_build sound canonical fun _ _ built => canonical.survives (.of_framed built.toFramed)
  | invalidate id =>
    exact Operation.apply_invalidate canonical fun _ => canonical.survives (.of_framed (Quiet.touch g id).toFramed)
  | takePrevious id => exact canonical.survives (.of_framed (Quiet.takePrevious g id).toFramed)
  | settle contextual =>
    have unfailing := steady.unfailing
    -- Every round starts from a graph like this one.
    have runs := @settle_runs (F.withContextual contextual) g
      (fun _ h => Conformed (F.withContextual contextual) s known h ∧ Canonical s h)
      ⟨conformed.congr _ rfl, canonical⟩ fun h member _ held =>
        ((held.1.round compiled distinct.types (unfailing.1 h member)).and
          (held.2.round compiled distinct held.1 (steady.2 h member))).mono (fun _ _ kept => kept) fun _ _ _ => trivial
    obtain ⟨diff, run⟩ := Option.isSome_iff_exists.mp steady.1
    rw [Ends, eq_ok_of_run' run] at runs
    exact runs.1.2

end run

end Canonical

/-- Every graph of a steady run is canonical. -/
theorem ReachableBy.canonical {serial : Nat} {d : Declarations} {F : Formulas} {s : Schema} {known : Record → Prop}
    {g : Graph} (compiled : Schema.compile serial d = .ok s) (distinct : Distinct s known)
    (reached : ReachableBy F s (Steady F s known) g) : Canonical s g := by
  induction reached with
  | empty maxRounds => exact ⟨fun id n live => (by cases live), fun p c n link live => (by cases live)⟩
  | apply reached op steady ih =>
    have conformed := ((reached.mono fun _ _ steady => steady.unfailing).recognized compiled distinct).1
    exact ih.apply compiled distinct conformed steady

section settled

variable {serial : Nat} {d : Declarations} {F : Formulas} {s : Schema} {known : Record → Prop} {g : Graph}

theorem Conformed.exists_cached (conformed : Conformed F s known g) (settled : g.changed = [])
    (live : g.contains id = true) : ∃ r, g.cached? id = some r := by
  cases cached : g.cached? id with
  | none =>
    have queued := conformed.fresh.pending id live cached
    rw [settled] at queued
    cases queued
  | some r => exact ⟨r, rfl⟩

/-- Where nothing is queued, what an entity unfolds to has the key of its node. -/
theorem Recognized.key_of_unfolds (recognized : Recognized s known g) (plainly : s.IdentifiesPlainly)
    (distinct : Distinct s known) (conformed : Conformed F s known g) (settled : g.changed = [])
    (live : g.node? id = some n) (identifiable : n.layout.identifiable = true)
    (unfolds : Unfolds F g id r) : r.key = n.key := by
  -- The record is the snapshot that the node has.
  obtain ⟨snapshot, cached⟩ := conformed.exists_cached settled (contains_iff.mpr ⟨n, live⟩)
  obtain rfl := unfolds.unique (conformed.fresh.coherent id snapshot cached unfolds.noCycle)
  obtain ⟨draft, -⟩ := recognized.named id n live
  have told := recognized.named.told live identifiable (plainly _ (mem_of_find?_eq_some draft.layout))
  -- It stands for the entity, so it has the key of the records that the node was met with.
  have stands := recognized.stands cached told
  rw [show g.keyOf id = n.key by simp [keyOf, live]] at stands
  obtain ⟨b, given, key, layout⟩ := draft.entity
  exact stands.key_eq distinct given key (by rw [layout]; exact identifiable)

/-- In a graph that has settled, in a run that meets own records whose keys tell identities apart, in which settling
succeeds and formulas give own values that their fields can hold, and no lists or maps to fields that cannot link: the
snapshot of an entity that is identified by fields neither derived nor able to link, and below which there is no cycle,
can be absorbed again. That gives its handle and changes nothing but the log of new nodes, which starts afresh, unless
it comes to a level that is too deep, where it is refused. -/
theorem ReachableBy.absorb_build {g' : Graph} {diff : Diff} (compiled : Schema.compile serial d = .ok s)
    (plainly : s.IdentifiesPlainly) (own : ∀ r, known r → s.ownsRecord r = true)
    (apart : KeysTellIdentities known) (reached : ReachableBy F s (Steady F s known) g)
    (steady : Steady F s known g (.settle F.contextual)) (settled : settle F g = .ok diff g')
    {id : NodeId} {n : Node} (live : g'.node? id = some n) (identifiable : n.layout.identifiable = true)
    (straight : g'.NoCycle id) (parentRoot : Option NodeId) :
    ∃ r, build F id g' = .ok r g' ∧
      (r.reach 0 ≤ Limits.depth → absorb r parentRoot g' = .ok id { g' with created := [] }) ∧
      (Limits.depth < r.reach 0 → ∃ g'', absorb r parentRoot g' = .error (.tooDeep Limits.depth) g'') := by
  have distinct : Distinct s known := ⟨own, apart⟩
  have accepted : s.Accepted := fun _ _ type => Schema.accepted_of_type? compiled type
  -- The graph is one of the run, and nothing is queued in it.
  have reached' : ReachableBy F s (Steady F s known) g' := by
    have next := reached.apply (.settle F.contextual) steady
    have left : (Operation.settle F.contextual).apply F g = g' := by
      change (settle F).after g = g'
      simp only [Step.after, settled]
    rwa [left] at next
  have canonical := reached'.canonical compiled distinct
  obtain ⟨sound, clear⟩ := reached'.clear fun _ _ steady => steady.settles
  obtain ⟨conformed, -, recognized⟩ := (reached'.mono fun _ _ steady => steady.unfailing).recognized compiled distinct
  have unchanged : g'.changed = [] := by
    have before := ((reached.mono fun _ _ steady => steady.unfailing).recognized compiled distinct).1
    have ends := before.settles compiled distinct.types steady.unfailing.1
    rw [Ends, settled] at ends
    exact ends.2
  -- So the node has its snapshot, which is what it unfolds to.
  obtain ⟨r, cached⟩ := conformed.exists_cached unchanged (contains_iff.mpr ⟨n, live⟩)
  have unfolds := conformed.fresh.coherent id r cached straight
  refine ⟨r, build_of_cached cached, ?_⟩
  have typed : ∀ id n, g'.node? id = some n → g'.schema.type? n.layout.name = some n.layout :=
    fun id n live => (conformed.typed id n live).layout
  have rests := (unfolds.rests_absorbAt canonical accepted sound typed conformed.schema_eq
    (fun id n r live identifiable unfolds => recognized.key_of_unfolds plainly distinct conformed unchanged live
      identifiable unfolds) live identifiable).2 parentRoot 0
  rw [Rests] at rests
  refine ⟨fun shallow => ?_, fun deep => ?_⟩
  · rw [if_pos shallow] at rests
    have cleared : sweep { g' with created := [] } = { g' with created := [] } := sweep_eq_self clear
    simp only [absorb, rests, cleared]
  · rw [if_neg (Nat.not_le.mpr deep)] at rests
    simp only [absorb, rests]
    exact ⟨_, rfl⟩

end settled

section decidable

variable (F : Formulas) (s : Schema) (known : Record → Prop) [DecidablePred known]

instance (g : Graph) (e : Task × Field Value) : Decidable (Mergeable s g e) :=
  inferInstanceAs (Decidable (_ ∧ _))

instance (g : Graph) (op : Operation) : Decidable (Steady F s known g op) :=
  match op with
  | .absorb .. | .settle _ | .retain _ | .release _ | .build _ | .invalidate _ | .takePrevious _ => by
    dsimp only [Steady]
    infer_instance

end decidable

/-- A rack has slots. A formula says which book is shown, and another how many there are. -/
def rackType : TypeDecl :=
  ⟨"Rack", none, [⟨"id", .text, 1, true, false, none, []⟩,
    ⟨"slots", .list (.record "Slot"), 2, false, false, none, []⟩,
    ⟨"shown", .record "Book", 3, false, false, some (.contextual "shown"), []⟩,
    ⟨"count", .text, 4, false, false, some (.contextual "count"), []⟩]⟩

/-- A slot is a part of a rack and holds one book. -/
def slotType : TypeDecl :=
  ⟨"Slot", none, [⟨"label", .text, 1, false, false, none, []⟩, ⟨"book", .record "Book", 2, false, false, none, []⟩]⟩

/-- A book is listed under its title, or else under its code. -/
def bookType : TypeDecl :=
  ⟨"Book", none, [⟨"code", .text, 1, true, false, none, []⟩, ⟨"title", .text, 2, false, false, none, []⟩,
    ⟨"listed", .text, 3, false, false, some (.firstOf ["title", "code"]), []⟩]⟩

def rackDeclarations : Declarations :=
  ⟨[rackType, slotType, bookType], [], []⟩

def rackLayout : Layout :=
  rackDeclarations.layout 0 [] rackType []

def slotLayout : Layout :=
  rackDeclarations.layout 0 [] slotType []

def bookLayout : Layout :=
  rackDeclarations.layout 0 [] bookType [2]

def rackSchema : Schema :=
  ⟨0, [rackLayout, slotLayout, bookLayout], [], []⟩

theorem compile_rack : Schema.compile 0 rackDeclarations = .ok rackSchema := by decide +kernel

/-- A book with a title, or without one. -/
def book (code : String) (title : Field Value) : Record :=
  ⟨bookLayout, [.value (.text code), title, .absent]⟩

/-- A slot with a book. -/
def placed (label code : String) (title : Field Value) : Record :=
  ⟨slotLayout, [.value (.text label), .value (.record (book code title))]⟩

/-- A rack with two books and an empty place between them. -/
def filledRack : Record :=
  ⟨rackLayout, [.value (.text "r"), .value (.list [some (.record (placed "left" "a" (.value (.text "Alpha")))), none,
    some (.record (placed "right" "b" .null))]), .absent, .absent]⟩

/-- The first book is shown, and there are two. -/
def rackFormulas : Formulas :=
  ⟨fun _ _ => .absent, fun name _ =>
    .value (if name = "shown" then .record (book "a" .absent) else .text "two")⟩

/-- The graph of the rack. -/
def rackGraph : Graph :=
  (Operation.absorb filledRack none).apply rackFormulas (Graph.empty rackSchema defaultRounds)

/-- The snapshot of the rack, with the derived book and the derived count, is absorbed without a trace. -/
theorem absorb_build_rack : ∃ r, build rackFormulas ⟨0, 0⟩ ((settle rackFormulas).after rackGraph) =
      .ok r ((settle rackFormulas).after rackGraph) ∧ r.reach 0 = 3 ∧
    absorb r none ((settle rackFormulas).after rackGraph) =
      .ok ⟨0, 0⟩ { (settle rackFormulas).after rackGraph with created := [] } := by
  have reached : ReachableBy rackFormulas rackSchema (Steady rackFormulas rackSchema
      (Among rackSchema [filledRack, book "a" .absent, book "b" .absent])) rackGraph :=
    (ReachableBy.empty defaultRounds).apply (.absorb filledRack none) (by decide +kernel)
  have steady : Steady rackFormulas rackSchema (Among rackSchema [filledRack, book "a" .absent, book "b" .absent])
      rackGraph (.settle rackFormulas.contextual) := by decide +kernel
  obtain ⟨diff, settled⟩ := Option.isSome_iff_exists.mp steady.1
  have computed : (((settle rackFormulas).after rackGraph).node? ⟨0, 0⟩).map (fun n => n.layout.identifiable) =
        some true ∧ ((settle rackFormulas).after rackGraph).leadsForward = true ∧
      ((build rackFormulas ⟨0, 0⟩).run' ((settle rackFormulas).after rackGraph)).map (fun r => r.reach 0) =
        some 3 := by decide +kernel
  obtain ⟨there, forward, depth⟩ := computed
  obtain ⟨n, live, identifiable⟩ := Option.map_eq_some_iff.mp there
  obtain ⟨r, built, again, -⟩ := ReachableBy.absorb_build compile_rack
    (show rackSchema.IdentifiesPlainly by unfold Schema.IdentifiesPlainly; decide +kernel) (fun _ known => known.1)
    (keysTellIdentities_among (by decide +kernel)) reached steady (eq_ok_of_run' settled) live identifiable
    (noCycle_of_leadsForward forward _) none
  -- The record that is built is the one whose depth was computed.
  rw [run'_of_ok built] at depth
  have three : r.reach 0 = 3 := Option.some.inj depth
  exact ⟨r, built, three, again (by rw [three]; decide)⟩

/-- Lists of knots in lists, so many times. -/
def knotKind : Nat → Kind
  | 0 => .record "Knot"
  | n + 1 => .list (knotKind n)

/-- A value in a list in a list, so many times. -/
def wrapped : Nat → Value → Value
  | 0, v => v
  | n + 1, v => .list [some (wrapped n v)]

/-- A knot has knots in lists that are nested a hundred times. -/
def knotType : TypeDecl :=
  ⟨"Knot", none, [⟨"id", .text, 1, true, false, none, []⟩, ⟨"ends", knotKind 100, 2, false, false, none, []⟩]⟩

def knotDeclarations : Declarations :=
  ⟨[knotType], [], []⟩

def knotLayout : Layout :=
  knotDeclarations.layout 0 [] knotType []

def knotSchema : Schema :=
  ⟨0, [knotLayout], [], []⟩

theorem compile_knot : Schema.compile 0 knotDeclarations = .ok knotSchema := by decide +kernel

/-- A knot with its ends, or without them. -/
def knot (id : String) (ends : Field Value) : Record :=
  ⟨knotLayout, [.value (.text id), ends]⟩

/-- A knot that ends in another one. -/
def tied (id other : String) : Record :=
  knot id (.value (wrapped 100 (.record (knot other .absent))))

/-- The graph of three knots, of which the first was tied to the second and then the second to the third. -/
def knotGraph : Graph :=
  (Operation.absorb (tied "b" "c") none).apply noFormulas
    ((Operation.absorb (tied "a" "b") none).apply noFormulas (Graph.empty knotSchema defaultRounds))

/-- Each knot can be absorbed on its own, but the snapshot of the first, with the others in it, is nested too deep. -/
theorem not_absorb_build : ¬ ∀ (serial : Nat) (d : Declarations) (s : Schema) (F : Formulas)
    (known : Record → Prop) (g g' : Graph) (diff : Diff) (id : NodeId) (n : Node),
    Schema.compile serial d = .ok s → s.IdentifiesPlainly → (∀ r, known r → s.ownsRecord r = true) →
    KeysTellIdentities known → ReachableBy F s (Steady F s known) g →
    Steady F s known g (.settle F.contextual) → settle F g = .ok diff g' →
    g'.node? id = some n →    n.layout.identifiable = true → g'.NoCycle id → ∃ r g'', build F id g' = .ok r g' ∧
      absorb r none g' = .ok id g'' ∧ (∀ j, g''.node? j = g'.node? j) ∧ g''.changed = g'.changed := by
  intro claim
  have reached : ReachableBy noFormulas knotSchema (Steady noFormulas knotSchema
      (Among knotSchema [knot "a" .absent, knot "b" .absent, knot "c" .absent])) knotGraph :=
    ((ReachableBy.empty defaultRounds).apply (.absorb (tied "a" "b") none) (by decide +kernel)).apply
      (.absorb (tied "b" "c") none) (by decide +kernel)
  have steady : Steady noFormulas knotSchema
      (Among knotSchema [knot "a" .absent, knot "b" .absent, knot "c" .absent]) knotGraph
      (.settle noFormulas.contextual) := by decide +kernel
  obtain ⟨diff, settled⟩ := Option.isSome_iff_exists.mp steady.1
  have computed : (((settle noFormulas).after knotGraph).node? ⟨0, 0⟩).map (fun n => n.layout.identifiable) =
        some true ∧ ((settle noFormulas).after knotGraph).leadsForward = true ∧
      ((build noFormulas ⟨0, 0⟩).run' ((settle noFormulas).after knotGraph)).map
        (fun r => (absorb r none).run' ((settle noFormulas).after knotGraph)) = some none := by decide +kernel
  obtain ⟨there, forward, refused⟩ := computed
  obtain ⟨n, live, identifiable⟩ := Option.map_eq_some_iff.mp there
  obtain ⟨r, g'', built, absorbed, -⟩ := claim 0 knotDeclarations knotSchema noFormulas _ knotGraph _ diff ⟨0, 0⟩ n
    compile_knot (by unfold Schema.IdentifiesPlainly; decide +kernel) (fun _ known => known.1)
    (keysTellIdentities_among (by decide +kernel)) reached steady (eq_ok_of_run' settled) live identifiable
    (noCycle_of_leadsForward forward _)
  -- The record that is built is the one that was refused.
  rw [run'_of_ok built, Option.map_some, run'_of_ok absorbed] at refused
  cases refused

end Graph

end EntityGraph
