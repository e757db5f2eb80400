import EntityGraph.Proofs.Graph.Documents

/-! Nodes are entities: their identifying fields are those of the records that were absorbed, so that every snapshot has
the key of its node. What a failure leaves half done is swept away. -/

namespace EntityGraph

open List

variable {i : Nat} {info : FieldInfo} {known : Record → Prop} {fields : List (Field Stored)} {incoming : Field Stored}
  {f : Field Value} {act : Act} {infos : List FieldInfo} {find : Key → Option NodeId}

/-- Fields that identify are neither derived nor able to link. -/
def Schema.IdentifiesPlainly (s : Schema) : Prop :=
  ∀ l ∈ s.types, ∀ info ∈ l.fields, info.identifying = true → info.derivation = none ∧ info.mayLink = false

/-- The known records are the schema's own. Their keys tell apart types and documents of identities. -/
structure Distinct (s : Schema) (known : Record → Prop) : Prop where
  own : ∀ r, known r → s.ownsRecord r = true
  apart : ∀ a b, known a → known b → a.key = b.key →
    a.typeName = b.typeName ∧ a.identity.toJson true = b.identity.toJson true

/-- The known records are entities of the schema as well. -/
structure Entities (s : Schema) (known : Record → Prop) : Prop extends Distinct s known where
  identifiable : ∀ r, known r → r.layout.identifiable = true

namespace Distinct

variable {s : Schema} (distinct : Distinct s known)

include distinct

/-- Keys tell types apart if they tell identities apart. -/
theorem types : KeysTellTypes known :=
  fun a b knownₐ knownᵦ same => (distinct.apart a b knownₐ knownᵦ same).1

/-- Records of one key have one layout. -/
theorem layout_eq {a b : Record} (knownₐ : known a) (knownᵦ : known b) (same : a.key = b.key) :
    a.layout = b.layout := by
  obtain ⟨type, -⟩ := Schema.ownsRecord_iff.mp (distinct.own a knownₐ)
  obtain ⟨type', -⟩ := Schema.ownsRecord_iff.mp (distinct.own b knownᵦ)
  have name : a.layout.name = b.layout.name := (distinct.apart a b knownₐ knownᵦ same).1
  rw [name, type'] at type
  exact (Option.some.inj type).symm

/-- Entities of one key have the same members. -/
theorem member?_eq (accepted : s.Accepted) {a b : Record} (knownₐ : known a) (knownᵦ : known b) (same : a.key = b.key)
    (identifiable : a.layout.identifiable = true) (there : a.layout.fields[i]? = some info) :
    a.fields[i]?.bind info.member? = b.fields[i]?.bind info.member? := by
  obtain ⟨type, -⟩ := Schema.ownsRecord_iff.mp (distinct.own a knownₐ)
  exact RecordOf.member?_eq_of_identity (distinct.layout_eq knownₐ knownᵦ same) identifiable
    (accepted _ _ type) (distinct.apart a b knownₐ knownᵦ same).2 there

end Distinct

/-- The record has the layout of the known records of a key, and the members that identify them. -/
structure Stands (known : Record → Prop) (key : Key) (a : Record) : Prop where
  length : a.fields.length = a.layout.fields.length
  layout : ∀ b, known b → b.key = key → a.layout = b.layout
  members : ∀ b, known b → b.key = key → ∀ (i : Nat) (info : FieldInfo), a.layout.fields[i]? = some info →
    a.fields[i]?.bind info.member? = b.fields[i]?.bind info.member?

namespace Stands

variable {s : Schema} {key : Key} {a b : Record} (stands : Stands known key a)
  (distinct : Distinct s known) (given : known b) (same : b.key = key) (identifiable : b.layout.identifiable = true)

include stands distinct given same identifiable

/-- A record that stands for a key has the key. -/
theorem key_eq : a.key = key := by
  obtain ⟨-, length, -⟩ := Schema.ownsRecord_iff.mp (distinct.own b given)
  have layout := stands.layout b given same
  rw [← same]
  exact RecordOf.key_eq_of_members (a := ⟨a, stands.length⟩) (b := ⟨b, length⟩) layout
    (by rw [layout]; exact identifiable) (stands.members b given same)

/-- It has its document as well, wherever it stands. -/
theorem document_eq (kind : Kind) : Emit.value true (Identity.ofValue (.record a)) kind =
    Emit.value true (Identity.ofValue (.record b)) kind := by
  obtain ⟨-, length, -⟩ := Schema.ownsRecord_iff.mp (distinct.own b given)
  have layout := stands.layout b given same
  exact RecordOf.document_eq_of_members (a := ⟨a, stands.length⟩) (b := ⟨b, length⟩) layout
    (by rw [layout]; exact identifiable) (stands.members b given same) kind

end Stands

/-- Keys of the given records tell types and documents of identities apart. -/
def KeysTellIdentities (known : Record → Prop) : Prop :=
  ∀ a b, known a → known b → a.key = b.key → a.typeName = b.typeName ∧ a.identity.toJson true = b.identity.toJson true

/-- The record is an entity of the schema. -/
def Schema.IsEntity (s : Schema) (r : Record) : Prop :=
  s.ownsRecord r = true ∧ r.layout.identifiable = true

/-- The known records that are entities of the schema. -/
def Schema.Entity (s : Schema) (known : Record → Prop) (r : Record) : Prop :=
  known r ∧ s.IsEntity r

/-- Keys that tell identities apart tell entities apart. -/
theorem KeysTellIdentities.entities (apart : KeysTellIdentities known) (s : Schema) : Entities s (s.Entity known) :=
  ⟨⟨fun _ entity => entity.2.1, fun a b first second => apart a b first.1 second.1⟩, fun _ entity => entity.2.2⟩

section met

variable {s : Schema}

/-- The acts of merging fields meet what storing their values meets. -/
theorem Acts.knows_merging {key : Key} {fields : List (Field Value)}
    (each : ∀ v, .value v ∈ fields → ∀ act ∈ Acts.ofValue s v, act.Knows known) (infos : List FieldInfo) (i : Nat) :
    ∀ act ∈ Acts.merging s key fields infos i, act.Knows known := by
  induction fields generalizing infos i with
  | nil => simp [merging_nil]
  | cons f fields ih =>
    cases infos with
    | nil => simp [merging_nil]
    | cons info infos =>
      rw [merging_cons, mergingField, forall_mem_append]
      refine ⟨?_, ih (fun v member => each v (.tail _ member)) infos (i + 1)⟩
      split
      · exact forall_mem_nil _
      · rw [forall_mem_append, forall_mem_singleton]
        refine ⟨?_, trivial⟩
        split
        · cases f with
          | value v => exact each v mem_cons_self
          | _ => exact forall_mem_nil _
        · exact forall_mem_nil _

/-- The records that are met in an own value are entities. -/
theorem Schema.isEntity_ofValue (v : Value) (own : s.owns v = true) :
    ∀ act ∈ Acts.ofValue s v, act.Knows s.IsEntity := by
  induction v using Value.induct_inner with
  | node r identifiable ih =>
    rw [Schema.owns_record] at own
    rw [Acts.ofValue, if_pos identifiable, Acts.ofRecord_eq, forall_mem_cons]
    refine ⟨⟨own, identifiable⟩, Acts.knows_merging (fun v member => ih v member ?_) _ 0⟩
    simpa using (Schema.ownsRecord_iff.mp own).2.2 _ member
  | rest v part ih =>
    rw [Acts.ofValue_eq s part, forall_mem_flatMap]
    exact fun w inside => ih w inside (Schema.owns_inner own w inside)

/-- In an own field entities are met only. -/
theorem Schema.isEntity_ofField (own : s.ownsField f = true) : ∀ act ∈ Acts.ofField s f, act.Knows s.IsEntity := by
  cases f with
  | value v => exact Schema.isEntity_ofValue v (Schema.ownsField_value ▸ own)
  | null => exact forall_mem_nil _
  | absent => exact forall_mem_nil _

end met

/-- What is known and an entity is a known entity. -/
theorem Act.Knows.entity {s : Schema} (met : act.Knows known) (entity : act.Knows s.IsEntity) :
    act.Knows (s.Entity known) := by
  cases act with
  | meet r => exact ⟨met, entity⟩
  | write w => trivial

/-- What has no derivation is not derived. -/
theorem Layout.Accepted.not_mem_deriveOrder {l : Layout} (accepted : l.Accepted) (there : l.fields[i]? = some info)
    (given : info.derivation = none) : i ∉ l.deriveOrder := by
  intro member
  obtain ⟨f, found, pure⟩ := (accepted.derived i).mp member
  rw [there] at found
  cases found
  simp [FieldDecl.isPure, given] at pure

/-- Fields are expanded one by one. -/
theorem Stored.getElem?_expandFields (F : Formulas) (records : NodeId → Record) (fields : List (Field Stored))
    (i : Nat) : (expandFields F records fields)[i]? = fields[i]?.map (expandField F records) := by
  rw [expandFields_eq, getElem?_map]

/-- A field without links expands to itself. -/
theorem Stored.expandField_plainField (F : Formulas) (records : NodeId → Record) (f : Field Value) :
    expandField F records (plainField f) = f := by
  cases f <;> simp [plainField, expandField, expand]

/-- An identity keeps the number of fields. -/
theorem Graph.length_ownIdentity (length : fields.length = infos.length) :
    (ownIdentity fields infos).length = fields.length := by
  induction fields generalizing infos with
  | nil => cases infos <;> rfl
  | cons f rest ih =>
    cases infos with
    | nil => cases length
    | cons info infos => simpa [ownIdentity] using ih (by simpa using length)

/-- It has the identifying fields that are plain. -/
theorem Graph.getElem?_ownIdentity (there : infos[i]? = some info) (identifying : info.identifying = true)
    (field : fields[i]? = some (Stored.plainField f)) : (ownIdentity fields infos)[i]? = some f := by
  induction fields generalizing infos i with
  | nil => cases field
  | cons g rest ih =>
    cases infos with
    | nil => cases there
    | cons head infos =>
      cases i with
      | zero =>
        cases there
        cases field
        cases f <;> simp [ownIdentity, Stored.plainField, identifying]
      | succ i => exact ih there field

namespace Node

variable {keys' : NodeId → Key} {n' : Node}

/-- As far as nothing in it is derived, a stored field has the member of the known records of a key at a position,
whatever records stand for the entities that it links to. -/
def Tells (known : Record → Prop) (keys : NodeId → Key) (key : Key) (i : Nat) (info : FieldInfo)
    (f : Field Stored) : Prop :=
  Stored.areUnderivedFields [f] = true → ∀ (F : Formulas) (records : NodeId → Record),
    (∀ c ∈ Stored.fieldLinks [f], Stands known (keys c) (records c)) → ∀ r, known r → r.key = key →
      info.member? (Stored.expandField F records f) = r.fields[i]?.bind info.member?

variable (s : Schema) (known : Record → Prop)

/-- A node of an entity, some of whose identifying fields may still be missing. -/
structure Draft (keys : NodeId → Key) (n : Node) : Prop where
  layout : s.type? n.layout.name = some n.layout
  length : n.fields.length = n.layout.fields.length
  entity : ∃ r, known r ∧ r.key = n.key ∧ r.layout = n.layout
  /-- An identifying field that is not derived is missing, or tells what all records of the entity say. -/
  members : n.layout.identifiable = true → ∀ (i : Nat) (info : FieldInfo), n.layout.fields[i]? = some info →
    info.identifying = true → info.derivation = none → ∃ f, n.fields[i]? = some f ∧
      (info.mayLink = false → ∃ v, f = Stored.plainField v) ∧ (f = .absent ∨ Tells known keys n.key i info f)

/-- No identifying field of the entity that is not derived is missing. -/
def Filled (n : Node) : Prop :=
  ∃ r, known r ∧ r.key = n.key ∧ ∀ (i : Nat) (info : FieldInfo), n.layout.fields[i]? = some info →
    info.identifying = true → info.derivation = none → r.fields[i]?.bind info.member? ≠ none →
    n.fields[i]? ≠ some .absent

variable {s known} {keys : NodeId → Key} {n : Node}

/-- Only the keys of the targets matter. -/
theorem Tells.congr {key : Key} {f : Field Stored} (tells : Tells known keys key i info f)
    (same : ∀ c ∈ Stored.fieldLinks [f], keys' c = keys c) :
    Tells known keys' key i info f := fun underived F records stand =>
  tells underived F records fun c link => same c link ▸ stand c link

/-- What makes a node a draft are its layout, its key, its fields, and the keys of the nodes that it links to. -/
theorem Draft.congr (draft : n.Draft s known keys) (layout : n'.layout = n.layout) (key : n'.key = n.key)
    (fields : n'.fields = n.fields) (same : ∀ c ∈ n.links, keys' c = keys c) : n'.Draft s known keys' := by
  refine ⟨by rw [layout]; exact draft.layout, by rw [layout, fields]; exact draft.length,
    by rw [layout, key]; exact draft.entity, ?_⟩
  rw [layout, key, fields]
  intro identifiable i info there identifying given
  obtain ⟨f, field, plain, told⟩ := draft.members identifiable i info there identifying given
  refine ⟨f, field, plain, told.imp_right fun tells => tells.congr fun c link => same c ?_⟩
  exact Stored.mem_fieldLinks_of_mem (mem_of_getElem? field) link

/-- Snapshots and tables have no part in it. -/
theorem Filled.congr (filled : n.Filled known) (layout : n'.layout = n.layout) (key : n'.key = n.key)
    (fields : n'.fields = n.fields) : n'.Filled known := by
  unfold Filled at filled ⊢
  rwa [layout, key, fields]

/-- A record with the layout of a node and the identifying fields that it has stands for its entity. -/
theorem Draft.stands (draft : n.Draft s known keys) (filled : n.Filled known) (accepted : s.Accepted)
    (distinct : Distinct s known)
    (identifiable : n.layout.identifiable = true) {a : Record} (layout : a.layout = n.layout)
    (length : a.fields.length = n.fields.length)
    (fields : ∀ (i : Nat) (info : FieldInfo) (f : Field Stored), n.layout.fields[i]? = some info →
      info.identifying = true → n.fields[i]? = some f → info.derivation = none ∧
        Stored.areUnderivedFields [f] = true ∧ ∃ F records,
          (∀ c ∈ Stored.fieldLinks [f], Stands known (keys c) (records c)) ∧
            a.fields[i]? = some (Stored.expandField F records f)) : Stands known n.key a := by
  obtain ⟨r, givenᵣ, keyᵣ, complete⟩ := filled
  obtain ⟨e, givenₑ, keyₑ, layoutₑ⟩ := draft.entity
  refine ⟨by rw [length, layout, draft.length], fun b given same => ?_, fun b given same i info there => ?_⟩
  · rw [layout, ← layoutₑ]
    exact distinct.layout_eq givenₑ given (keyₑ.trans same.symm)
  · rw [layout] at there
    cases identifying : info.identifying with
    | false =>
      -- Fields that do not identify add nothing.
      have none : info.member? = fun _ => none := by
        funext f
        cases f <;> simp [FieldInfo.member?, identifying]
      simp [none]
    | true =>
      have inside := (List.getElem?_eq_some_iff.mp there).1
      rw [← draft.length] at inside
      obtain ⟨given', underived, F, records, stand, built⟩ := fields i info _ there identifying
        (getElem?_eq_getElem inside)
      obtain ⟨f, field, -, told⟩ := draft.members identifiable i info there identifying given'
      rw [getElem?_eq_getElem inside, Option.some.injEq] at field
      rw [field] at underived stand built
      rw [built, Option.bind_some]
      rcases told with rfl | tells
      · -- A field that is missing is missing in the records, too.
        by_contra declared
        have missing : r.fields[i]?.bind info.member? ≠ none := by
          rw [distinct.member?_eq accepted givenᵣ given (keyᵣ.trans same.symm)
            (by rw [distinct.layout_eq givenᵣ givenₑ (keyᵣ.trans keyₑ.symm), layoutₑ]; exact identifiable)
            (by rw [distinct.layout_eq givenᵣ givenₑ (keyᵣ.trans keyₑ.symm), layoutₑ]; exact there)]
          exact fun none => declared (by rw [none]; rfl)
        exact complete i info there identifying given' missing (by rw [getElem?_eq_getElem inside, field])
      · exact tells underived F records stand b given same

/-- A node is linked to by an identifying field. -/
def Names (n : Node) (c : NodeId) : Prop :=
  ∃ (i : Nat) (info : FieldInfo) (f : Field Stored), n.layout.fields[i]? = some info ∧ info.identifying = true ∧
    n.fields[i]? = some f ∧ c ∈ Stored.fieldLinks [f]

/-- The identifying fields are given: neither they nor parts in them are derived. -/
def Given (n : Node) : Prop :=
  ∀ (i : Nat) (info : FieldInfo) (f : Field Stored), n.layout.fields[i]? = some info → info.identifying = true →
    n.fields[i]? = some f → info.derivation = none ∧ Stored.areUnderivedFields [f] = true

/-- The identifying fields are plain: there is nothing to build in them. -/
def Plain (n : Node) : Prop :=
  ∀ (i : Nat) (info : FieldInfo) (f : Field Stored), n.layout.fields[i]? = some info → info.identifying = true →
    n.fields[i]? = some f → ∃ v, f = Stored.plainField v

section stands

variable (accepted : s.Accepted) (distinct : Distinct s known) (draft : n.Draft s known keys)
  (filled : n.Filled known) (identifiable : n.layout.identifiable = true) (given : n.Given)
include accepted distinct draft filled identifiable given

/-- The snapshot of a node stands for its entity if the records that it is identified by stand for theirs. -/
theorem Draft.stands_snapshot (F : Formulas) {records : NodeId → Record}
    (stand : ∀ c, n.Names c → Stands known (keys c) (records c)) :
    Stands known n.key (Stored.expandRecord F records n.content) := by
  have derived := RecordOf.differs_foldl_deriveAt F ⟨n.layout, Stored.expandFields F records n.fields⟩
    n.layout.deriveOrder
  rw [Node.content, Stored.expandRecord, RecordOf.derive]
  refine draft.stands filled accepted distinct identifiable derived.layout
    (derived.length.trans (by rw [Stored.expandFields_eq, length_map])) fun i info f there identifying field => ?_
  obtain ⟨underived, parts⟩ := given i info f there identifying field
  refine ⟨underived, parts, F, records, fun c link => stand c ⟨i, info, f, there, identifying, field, link⟩, ?_⟩
  have kept := (accepted _ _ draft.layout).not_mem_deriveOrder there underived
  rw [derived.fields i kept, Stored.getElem?_expandFields, field]
  rfl

/-- What stands for a node on a cycle stands for its entity if there is nothing to build in its identifying fields. -/
theorem Draft.stands_standIn (F : Formulas) (plain : n.Plain) : Stands known n.key (Graph.standIn F n) := by
  have derived := RecordOf.differs_foldl_deriveAt F ⟨n.layout, Graph.ownIdentity n.fields n.layout.fields⟩
    n.layout.deriveOrder
  rw [Graph.standIn, RecordOf.derive]
  refine draft.stands filled accepted distinct identifiable derived.layout
    (derived.length.trans (Graph.length_ownIdentity draft.length)) fun i info f there identifying field => ?_
  obtain ⟨underived, parts⟩ := given i info f there identifying field
  obtain ⟨v, rfl⟩ := plain i info f there identifying field
  refine ⟨underived, parts, F, fun _ => Graph.standIn F n, fun c link => ?_, ?_⟩
  · cases v <;> simp [Stored.plainField, Stored.fieldLinks, Stored.links] at link
  have kept := (accepted _ _ draft.layout).not_mem_deriveOrder there underived
  rw [derived.fields i kept, Graph.getElem?_ownIdentity there identifying field, Stored.expandField_plainField]

end stands

/-- Where identifying fields cannot link, the keys of other nodes have no part in a draft. -/
theorem Draft.rekey (plainly : s.IdentifiesPlainly) (draft : n.Draft s known keys) (keys' : NodeId → Key) :
    n.Draft s known keys' := by
  refine ⟨draft.layout, draft.length, draft.entity, fun identifiable i info there identifying given => ?_⟩
  obtain ⟨f, field, plain, told⟩ := draft.members identifiable i info there identifying given
  refine ⟨f, field, plain, told.imp_right fun tells => tells.congr fun c link => ?_⟩
  have listed : n.layout ∈ s.types := mem_of_find?_eq_some draft.layout
  obtain ⟨v, rfl⟩ := plain (plainly _ listed info (mem_of_getElem? there) identifying).2
  cases v <;> simp [Stored.plainField, Stored.fieldLinks, Stored.links] at link

/-- Where those of its type cannot link, the identifying fields of a draft are plain. -/
theorem Draft.plain (plainly : ∀ info ∈ n.layout.fields, info.identifying = true →
    info.derivation = none ∧ info.mayLink = false) (draft : n.Draft s known keys)
    (identifiable : n.layout.identifiable = true) : n.Plain := by
  intro i info f there identifying field
  obtain ⟨given, unlinked⟩ := plainly info (mem_of_getElem? there) identifying
  obtain ⟨f', field', plain, -⟩ := draft.members identifiable i info there identifying given
  rw [field] at field'
  cases field'
  exact plain unlinked

/-- Plain fields that are not derived are given. -/
theorem Plain.given (plain : n.Plain) (underived : ∀ info ∈ n.layout.fields, info.identifying = true →
    info.derivation = none) : n.Given := by
  intro i info f there identifying field
  obtain ⟨v, rfl⟩ := plain i info f there identifying field
  refine ⟨underived info (mem_of_getElem? there) identifying, ?_⟩
  cases v <;> simp [Stored.plainField, Stored.areUnderivedFields, Stored.underived]

/-- Plain fields name no other node. -/
theorem Plain.not_names (plain : n.Plain) (c : NodeId) : ¬ n.Names c := by
  rintro ⟨i, info, f, there, identifying, field, link⟩
  obtain ⟨v, rfl⟩ := plain i info f there identifying field
  cases v <;> simp [Stored.plainField, Stored.fieldLinks, Stored.links] at link

/-- The fields of the node are the schema's own, and so are its snapshots, which have its layout and its key. -/
structure Owned (s : Schema) (n : Node) : Prop where
  own : Stored.areOwnFields s n.fields = true
  snapshots : ∀ r, n.cached = some r ∨ n.previous = some r →
    s.ownsRecord r = true ∧ r.layout = n.layout ∧ r.key = n.key

/-- Being owned is a matter of layout and fields. -/
theorem Owned.loose : Loose (Owned s) where
  parents _ _ owned := ⟨owned.own, owned.snapshots⟩
  held _ _ owned := ⟨owned.own, owned.snapshots⟩
  evict n owned := by
    refine ⟨owned.own, fun r found => owned.snapshots r ?_⟩
    -- The evicted snapshot is one of the two that the node had.
    simp only [evict, reduceCtorEq, false_or] at found
    cases before : n.previous with
    | some p =>
      rw [before] at found
      exact Or.inr found
    | none =>
      rw [before] at found
      exact Or.inl found

/-- A node of an entity with all identifying fields, in a schema where these cannot link. -/
structure Entity (s : Schema) (known : Record → Prop) (n : Node) : Prop extends Owned s n where
  draft : ∃ keys, n.Draft s known keys
  filled : n.Filled known

namespace Entity

variable (entity : n.Entity s known)
include entity

/-- The layout is that of the schema. -/
theorem layout : s.type? n.layout.name = some n.layout :=
  entity.draft.elim fun _ draft => draft.layout

/-- There is one field for each position. -/
theorem length : n.fields.length = n.layout.fields.length :=
  entity.draft.elim fun _ draft => draft.length

/-- A node with the same key and fields is the same entity. -/
theorem congr (owned : n'.Owned s) (layout : n'.layout = n.layout) (key : n'.key = n.key)
    (fields : n'.fields = n.fields) : n'.Entity s known := by
  obtain ⟨keys, draft⟩ := entity.draft
  exact ⟨owned, ⟨keys, draft.congr layout key fields fun _ _ => rfl⟩, entity.filled.congr layout key fields⟩

/-- The snapshot of an entity stands for it. -/
theorem stands_snapshot (accepted : s.Accepted) (plainly : s.IdentifiesPlainly) (entities : Entities s known)
    (F : Formulas) (records : NodeId → Record) : Stands known n.key (Stored.expandRecord F records n.content) := by
  obtain ⟨keys, draft⟩ := entity.draft
  obtain ⟨r, known', -, layout⟩ := draft.entity
  have identifiable : n.layout.identifiable = true := layout ▸ entities.identifiable r known'
  have plainly' := plainly _ (mem_of_find?_eq_some draft.layout)
  have plain := draft.plain plainly' identifiable
  exact draft.stands_snapshot accepted entities.toDistinct entity.filled identifiable
    (plain.given fun info member identifying => (plainly' info member identifying).1) F
    fun c named => absurd named (plain.not_names c)

end Entity

/-- Being an entity is a matter of layout, key and fields. -/
theorem Entity.loose : Loose (Entity s known) where
  parents n parents entity := entity.congr (Owned.loose.parents n parents entity.toOwned) rfl rfl rfl
  held n count entity := entity.congr (Owned.loose.held n count entity.toOwned) rfl rfl rfl
  evict n entity := entity.congr (Owned.loose.evict n entity.toOwned) rfl rfl rfl

/-- Entities last. -/
theorem Entity.lasting (accepted : s.Accepted) (plainly : s.IdentifiesPlainly) (entities : Entities s known)
    {F : Formulas} (keep : F.KeepOwn s) : Lasting F (Entity s known) where
  toLoose := Entity.loose
  take n entity := by
    refine entity.congr ⟨entity.own, fun r found => entity.snapshots r ?_⟩ rfl rfl rfl
    simp only [reduceCtorEq, or_false] at found
    exact Or.inl found
  snapshot n records entity known' := by
    have stands := entity.stands_snapshot accepted plainly entities F records
    obtain ⟨keys, draft⟩ := entity.draft
    obtain ⟨r, given, key, layout⟩ := draft.entity
    have owned : s.ownsRecord (Stored.expandRecord F records n.content) = true := by
      refine Stored.owns_expandRecord keep n.content ?_ fun c link => ?_
      · rw [Node.content, Stored.isOwnRecord, entity.own]
        simp [draft.layout, draft.length]
      · obtain ⟨m, entity', same⟩ := known' c (by simpa [Node.content, Stored.recordLinks, Node.links] using link)
        rw [same]
        cases cached : m.cached with
        | some r => exact (entity'.snapshots r (Or.inl cached)).1
        | none => exact Graph.ownsRecord_standIn keep entity'.layout entity'.length entity'.own
    refine entity.congr ⟨entity.own, fun r' found => ?_⟩ rfl rfl rfl
    rcases found with built | evicted
    · cases built
      exact ⟨owned, (stands.layout r given key).trans layout,
        stands.key_eq entities.toDistinct given key (entities.identifiable r given)⟩
    · exact entity.snapshots r' (Or.inr evicted)

end Node

/-- A declared field is not missing where it is put. -/
theorem Stored.not_absent_put {j : Nat} (declared : incoming ≠ .absent)
    (missing : (put fields i incoming)[j]? = some .absent) : j ≠ i ∧ fields[j]? = some .absent := by
  by_cases here : i = j
  · subst here
    cases current : fields[i]? with
    | none => simp [put, current] at missing
    | some f =>
      rcases getElem?_put current incoming with new | ⟨old, alike⟩
      · rw [new] at missing
        exact absurd (Option.some.inj missing) declared
      · -- What is alike to a declared field is declared.
        rw [old] at missing
        cases Option.some.inj missing
        cases incoming with
        | absent => exact absurd rfl declared
        | null => cases alike
        | value st => cases alike
  · rw [getElem?_put_ne here] at missing
    exact ⟨fun same => here same.symm, missing⟩

/-- What is written of a declared field is declared. -/
theorem Write.image?_ne_absent {w : Write} (declared : w.field.isDeclared = true)
    (image : w.image? find = some incoming) : incoming ≠ .absent := by
  rcases w with ⟨key, position, field, linking⟩
  unfold Write.image? at image
  cases field with
  | absent => cases declared
  | null => cases image; simp
  | value v =>
    simp only at image
    split at image
    · obtain ⟨st, -, rfl⟩ := Option.map_eq_some_iff.mp image
      simp
    · cases image
      simp

/-- What cannot link is stored as it is. -/
theorem Write.image?_of_plain {w : Write} (plain : w.linking = false)
    (image : w.image? find = some incoming) : incoming = Stored.plainField w.field := by
  rcases w with ⟨key, position, field, linking⟩
  cases plain
  cases field <;> cases image <;> rfl

namespace Graph

variable {s : Schema} {acts : List Act} {g' : Graph}

/-- What may be done to entities: known records are met, and what is written to a node is a field of a known record of
the entity, or a field that has no part in what is given of the identity. -/
def Admits (s : Schema) (known : Record → Prop) (g : Graph) : Act → Prop
  | .meet r => known r
  | .write w => (∃ r, known r ∧ w.Of s r) ∨ ∃ id n info, g.find? w.key = some id ∧ g.node? id = some n ∧
    n.layout.fields[w.position]? = some info ∧ (info.identifying = true → info.derivation ≠ none)

/-- What may be done may still be done when the graph has grown. -/
theorem Admits.grows {g : Graph} (admits : Admits s known g act) (grows : Grows g g')
    (finds : Finds g.find? g'.find?) : Admits s known g' act := by
  cases act with
  | meet r => exact admits
  | write w =>
    rcases admits with sourced | ⟨id, n, info, found, live, there, other⟩
    · exact Or.inl sourced
    · obtain ⟨n', live', stays⟩ := grows.live id n live
      exact Or.inr ⟨id, n', info, finds _ _ found, live', by rw [stays.layout]; exact there, other⟩

/-- What merging known records does may be done. -/
theorem admits_of_tidy (tidy : Acts.Tidy s acts) (met : ∀ act ∈ acts, act.Knows known) (g : Graph) :
    ∀ act ∈ acts, Admits s known g act := by
  intro act member
  cases act with
  | meet r => exact met _ member
  | write w =>
    obtain ⟨r, there, of⟩ := tidy.sourced w member
    exact Or.inl ⟨r, met _ there, of⟩

/-- Merging writes own fields only. -/
theorem ownsField_of_tidy (own : ∀ r, known r → s.ownsRecord r = true) (tidy : Acts.Tidy s acts)
    (met : ∀ act ∈ acts, act.Knows known) : ∀ w, .write w ∈ acts → s.ownsField w.field = true := by
  intro w member
  obtain ⟨r, there, of⟩ := tidy.sourced w member
  exact (Schema.ownsRecord_iff.mp (own r (met _ there))).2.2 _ (mem_of_getElem? of.field)

/-- Writing own fields leaves nodes the schema's own. -/
theorem Performs.owned {g : Graph} (performs : Performs acts g g') (sound : Sound g)
    (own : ∀ w, .write w ∈ acts → s.ownsField w.field = true) (owned : Nodes (Node.Owned s) g) :
    Nodes (Node.Owned s) g' := by
  induction performs with
  | nil => exact owned
  | cons does _ ih =>
    refine ih ((Performs.single does).sound sound).1 (fun w member => own w (.tail _ member)) ?_
    refine Nodes.does Node.Owned.loose sound ?_ does
    intro j n origin
    cases origin with
    | kept live => exact owned j n live
    | made =>
      refine ⟨Stored.areOwnFields_iff.mpr fun f member => ?_, by simp [Node.new]⟩
      rw [eq_of_mem_replicate member]
      rfl
    | wrote _ live image =>
      have before := owned j _ live
      exact ⟨Stored.areOwnFields_put before.own (Write.areOwnFields_image? (own _ mem_cons_self) image) _,
        before.snapshots⟩

section write

variable {g : Graph} {w : Write} {id : NodeId} {n : Node}

/-- The stored form of a field of a known record tells what the records of its key say. -/
theorem tells_image (accepted : s.Accepted) (distinct : Distinct s known) (sound : Sound g) {r : Record}
    (given : known r) (identifiable : r.layout.identifiable = true) (of : w.Of s r)
    (met : w.linking = true → ∀ act ∈ Acts.ofField s w.field, act.Knows known)
    (image : w.image? g.find? = some incoming) (there : r.layout.fields[w.position]? = some info) :
    Node.Tells known g.keyOf r.key w.position info incoming := by
  intro underived F records stand b given' same
  rw [← distinct.member?_eq accepted given given' same.symm identifiable there, of.field, Option.bind_some]
  have own := (Schema.ownsRecord_iff.mp (distinct.own r given)).2.2 _ (mem_of_getElem? of.field)
  rcases w with ⟨key, position, field, linking⟩
  cases field with
  | absent => cases of.declared
  | null =>
    cases image
    rfl
  | value v =>
    cases linking with
    | false =>
      cases image
      simp only [Stored.expandField, Stored.expand]
    | true =>
      obtain ⟨st, stored, rfl⟩ := Option.map_eq_some_iff.mp image
      rw [Schema.ownsField_value] at own
      simp only [Stored.areUnderivedFields, Bool.and_true] at underived
      simp only [Stored.fieldLinks, append_nil] at stand
      -- What is found under the key of an entity is the node of that key.
      have standsFor : ∀ c ∈ st.links, StandsFor known g.find? records c := by
        intro c link b' given'' identifiable' found kind
        obtain ⟨m, live, keyₘ⟩ := sound.toArena.of_find? found
        have keyed : b'.key = g.keyOf c := by simp [keyOf, live, keyₘ]
        exact (stand c link).document_eq distinct given'' keyed identifiable' kind
      have documents := Stored.document_expand accepted F v own (met rfl) stored underived standsFor
      simp only [Stored.expandField, FieldInfo.member?, documents info.kind]

section

variable (admits : Admits s known g (.write w))
include admits

/-- A field that is written to an entity is declared, or has no part in what is given of its identity. -/
theorem Admits.declared_or (owner : g.find? w.key = some id) (live : g.node? id = some n) : w.field.isDeclared = true ∨
      ∃ info, n.layout.fields[w.position]? = some info ∧ (info.identifying = true → info.derivation ≠ none) := by
  rcases admits with ⟨r, -, of⟩ | ⟨id', n', info, found, live', there, other⟩
  · exact Or.inl of.declared
  · rw [owner] at found
    cases found
    rw [live] at live'
    cases live'
    exact Or.inr ⟨info, there, other⟩

/-- Writing a field keeps a draft one. -/
theorem Admits.draft (accepted : s.Accepted) (distinct : Distinct s known) (sound : Sound g)
    (owner : g.find? w.key = some id) (live : g.node? id = some n) (key : n.key = w.key)
    (met : w.linking = true → ∀ act ∈ Acts.ofField s w.field, act.Knows known)
    (image : w.image? g.find? = some incoming) (draft : n.Draft s known g.keyOf) :
    Node.Draft s known g.keyOf { n with fields := Stored.put n.fields w.position incoming } := by
  refine ⟨draft.layout, by rw [Stored.length_put]; exact draft.length, draft.entity,
    fun identifiable i info there identifying given => ?_⟩
  obtain ⟨f, field, plain, told⟩ := draft.members identifiable i info there identifying given
  by_cases here : w.position = i
  · subst here
    -- What is there is kept, or replaced by what another record of the entity has there.
    rcases Stored.getElem?_put field incoming with new | ⟨old, -⟩
    · rcases admits with ⟨r, given', of⟩ | ⟨id', n', info', found, live', there', other⟩
      · have layout : r.layout = n.layout := by
          obtain ⟨a, givenₐ, keyₐ, layoutₐ⟩ := draft.entity
          rw [← layoutₐ]
          exact distinct.layout_eq given' givenₐ (by rw [keyₐ, ← of.key, key])
        obtain ⟨info', described, -, links⟩ := of.info
        have type : s.type? r.typeName = some n.layout := by
          rw [RecordOf.typeName, layout]
          exact draft.layout
        rw [Schema.fieldsOf, type, Option.map_some, Option.getD_some, there] at described
        cases described
        refine ⟨incoming, new, fun unlinked => ⟨w.field, Write.image?_of_plain (links.trans unlinked) image⟩,
          Or.inr ?_⟩
        rw [show n.key = r.key from key.trans of.key]
        exact tells_image accepted distinct sound given' (by rw [layout]; exact identifiable) of met image
          (by rw [layout]; exact there)
      · rw [owner] at found
        cases found
        rw [live] at live'
        cases live'
        rw [there] at there'
        cases there'
        exact absurd given (other identifying)
    · exact ⟨f, old, plain, told⟩
  · exact ⟨f, by rw [Stored.getElem?_put_ne here]; exact field, plain, told⟩

/-- An identifying field that is missing after a write was missing before. -/
theorem Admits.missing (owner : g.find? w.key = some id) (live : g.node? id = some n)
    (image : w.image? g.find? = some incoming) (there : n.layout.fields[i]? = some info)
    (identifying : info.identifying = true) (given : info.derivation = none)
    (missing : (Stored.put n.fields w.position incoming)[i]? = some .absent) : n.fields[i]? = some .absent := by
  rcases admits.declared_or owner live with written | ⟨info', there', other⟩
  · exact (Stored.not_absent_put (Write.image?_ne_absent written image) missing).2
  · by_cases here : w.position = i
    · subst here
      rw [there'] at there
      cases there
      exact absurd given (other identifying)
    · rwa [Stored.getElem?_put_ne here] at missing

/-- Writing a field takes no identifying field away. -/
theorem Admits.filled (owner : g.find? w.key = some id) (live : g.node? id = some n)
    (image : w.image? g.find? = some incoming) (filled : n.Filled known) :
    Node.Filled known { n with fields := Stored.put n.fields w.position incoming } := by
  obtain ⟨r, known', key, each⟩ := filled
  exact ⟨r, known', key, fun i info there identifying given declared missing =>
    each i info there identifying given declared (admits.missing owner live image there identifying given missing)⟩

end

end write

end Graph

end EntityGraph
