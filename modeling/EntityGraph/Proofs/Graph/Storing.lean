import EntityGraph.Graph.Settle
import EntityGraph.Proofs.Graph.Absorb
import EntityGraph.Proofs.Record.Induction

/-! What absorbing does, read off the value that is absorbed: the records that are met and the fields that are written,
in order. A run performs all of it, or a first part if it fails. -/

namespace EntityGraph

open List

variable {fields : List (Field Value)} {infos : List FieldInfo} {v : Value}

/-- A field that is written to the node of a key. -/
structure Write where
  key : Key
  position : Nat
  field : Field Value
  /-- Identifiable records in the field become links. -/
  linking : Bool

/-- One thing that absorbing does. -/
inductive Act where
  /-- The node of a record is looked up, and made if there is none. -/
  | meet (r : Record)
  | write (w : Write)

/-- The fields of a type; a type that is not known has none. -/
def Schema.fieldsOf (s : Schema) (name : String) : List FieldInfo :=
  ((s.type? name).map Layout.fields).getD []

namespace Acts

mutual

/-- What storing a value does. -/
def ofValue (schema : Schema) : Value → List Act
  | .record r =>
    if r.layout.identifiable then ofRecord schema r
    else if r.layout.containsIdentifiable then ofInline schema r
    else []
  | .list items => ofItems schema items
  | .map entries => ofEntries schema entries
  | _ => []

/-- What storing the elements of a list does. -/
def ofItems (schema : Schema) : List (Option Value) → List Act
  | [] => []
  | some v :: rest => ofValue schema v ++ ofItems schema rest
  | none :: rest => ofItems schema rest

/-- What storing the entries of a map does. -/
def ofEntries (schema : Schema) : List (String × Option Value) → List Act
  | [] => []
  | (_, some v) :: rest => ofValue schema v ++ ofEntries schema rest
  | (_, none) :: rest => ofEntries schema rest

/-- What storing a record as a part of its owner does. -/
def ofInline (schema : Schema) : RecordOf Value → List Act
  | ⟨layout, fields⟩ => ofFields schema fields layout.fields

/-- What storing fields does. -/
def ofFields (schema : Schema) : List (Field Value) → List FieldInfo → List Act
  | .value v :: fields, info :: infos =>
    (if info.isPure then [] else ofValue schema v) ++ ofFields schema fields infos
  | .null :: fields, _ :: infos => ofFields schema fields infos
  | .absent :: fields, _ :: infos => ofFields schema fields infos
  | _, _ => []

/-- What merging a record does. -/
def ofRecord (schema : Schema) : RecordOf Value → List Act
  | ⟨own, fields⟩ =>
    .meet ⟨own, fields⟩ :: merging schema (RecordOf.key ⟨own, fields⟩) fields (schema.fieldsOf own.name) 0

/-- What merging the fields from the given position on does to the node of a key. -/
def merging (schema : Schema) (key : Key) : List (Field Value) → List FieldInfo → Nat → List Act
  | .value v :: fields, info :: infos, i =>
    (if info.isPure then []
      else (if info.mayLink then ofValue schema v else []) ++ [.write ⟨key, i, .value v, info.mayLink⟩]) ++
      merging schema key fields infos (i + 1)
  | .null :: fields, info :: infos, i =>
    (if info.isPure then [] else [.write ⟨key, i, .null, info.mayLink⟩]) ++ merging schema key fields infos (i + 1)
  | .absent :: fields, _ :: infos, i => merging schema key fields infos (i + 1)
  | _, _, _ => []

end

/-- What storing a field does. -/
def ofField (schema : Schema) : Field Value → List Act
  | .value v => ofValue schema v
  | _ => []

/-- What storing results does, given the keys of the nodes that they are for. -/
def ofResults (schema : Schema) (key : NodeId → Key) (results : List (Graph.Task × Field Value)) : List Act :=
  results.flatMap fun e => ofField schema e.2 ++ [.write ⟨key e.1.id, e.1.field, e.2, true⟩]

end Acts

namespace Stored

mutual

/-- The stored form of a value, given the nodes of keys. -/
def ofValue? (find : Key → Option NodeId) : Value → Option Stored
  | .record r =>
    if r.layout.identifiable then (find r.key).map .link
    else if r.layout.containsIdentifiable then (ofRecord? find r).map .inline
    else some (.plain (.record r))
  | .list items => (ofItems? find items).map .list
  | .map entries => (ofEntries? find entries).map .map
  | v => some (.plain v)

/-- The stored forms of the elements of a list. -/
def ofItems? (find : Key → Option NodeId) : List (Option Value) → Option (List (Option Stored))
  | [] => some []
  | some v :: rest => do
    let s ← ofValue? find v
    let stored ← ofItems? find rest
    return some s :: stored
  | none :: rest => do
    let stored ← ofItems? find rest
    return none :: stored

/-- The stored forms of the entries of a map. -/
def ofEntries? (find : Key → Option NodeId) : List (String × Option Value) → Option (List (String × Option Stored))
  | [] => some []
  | (k, some v) :: rest => do
    let s ← ofValue? find v
    let stored ← ofEntries? find rest
    return (k, some s) :: stored
  | (k, none) :: rest => do
    let stored ← ofEntries? find rest
    return (k, none) :: stored

/-- The stored form of a record that is part of its owner. -/
def ofRecord? (find : Key → Option NodeId) : RecordOf Value → Option (RecordOf Stored)
  | ⟨layout, fields⟩ => do
    let stored ← ofFields? find fields layout.fields
    return ⟨layout, stored⟩

/-- The stored forms of fields. Pure derivations are left out. -/
def ofFields? (find : Key → Option NodeId) :
    List (Field Value) → List FieldInfo → Option (List (Field Stored))
  | .value v :: fields, info :: infos =>
    if info.isPure then do
      let stored ← ofFields? find fields infos
      return .absent :: stored
    else do
      let s ← ofValue? find v
      let stored ← ofFields? find fields infos
      return .value s :: stored
  | .null :: fields, info :: infos => do
    let stored ← ofFields? find fields infos
    return (if info.isPure then .absent else .null) :: stored
  | .absent :: fields, _ :: infos => do
    let stored ← ofFields? find fields infos
    return .absent :: stored
  | _, _ => some []

end

end Stored

/-- What is written: the stored form of the field. -/
def Write.image? (find : Key → Option NodeId) (w : Write) : Option (Field Stored) :=
  match w.field with
  | .absent => some .absent
  | .null => some .null
  | .value v => if w.linking then (Stored.ofValue? find v).map .value else some (.value (.plain v))

/-- The nodes of the given handles that one index finds are found by the other. -/
def FindsAmong (find find' : Key → Option NodeId) (ids : List NodeId) : Prop :=
  ∀ key, ∀ id ∈ ids, find key = some id → find' key = some id

/-- All nodes that one index finds are found by the other. -/
def Finds (find find' : Key → Option NodeId) : Prop :=
  ∀ key id, find key = some id → find' key = some id

section find

variable {find find' : Key → Option NodeId}

theorem Finds.among (more : Finds find find') (ids : List NodeId) : FindsAmong find find' ids :=
  fun key id _ found => more key id found

theorem FindsAmong.mono {ids ids' : List NodeId} (more : FindsAmong find find' ids) (fewer : ∀ c ∈ ids', c ∈ ids) :
    FindsAmong find find' ids' :=
  fun key id member found => more key id (fewer id member) found

end find

namespace Value

/-- The value becomes a node of its own. -/
def isNode : Value → Bool
  | .record r => r.layout.identifiable
  | _ => false

/-- The values of fields that are no pure derivations. -/
def kept (fields : List (Field Value)) (infos : List FieldInfo) : List Value :=
  (fields.zip infos).filterMap fun e => if e.2.isPure then none else e.1.value?

/-- The values right inside a value that are stored one by one. -/
def inner : Value → List Value
  | .record r => if r.layout.containsIdentifiable then kept r.fields r.layout.fields else []
  | .list items => items.filterMap id
  | .map entries => entries.filterMap Prod.snd
  | _ => []

/-- What is kept stands in one of the fields. -/
theorem mem_of_mem_kept (member : v ∈ kept fields infos) : .value v ∈ fields := by
  obtain ⟨⟨f, info⟩, inside, same⟩ := mem_filterMap.mp member
  split at same
  · cases same
  · cases f <;> cases same
    exact (of_mem_zip inside).1

/-- What holds of a value that becomes a node as soon as it holds of the values in its fields, and of any other value as
soon as it holds of those that are stored one by one, holds of every value. -/
theorem induct_inner {P : Value → Prop}
    (node : ∀ r : Record, r.layout.identifiable = true → (∀ v, .value v ∈ r.fields → P v) → P (.record r))
    (rest : ∀ v : Value, v.isNode = false → (∀ w ∈ v.inner, P w) → P v) (v : Value) : P v := by
  induction v using Value.induct with
  | scalar v plain =>
    cases v <;> first | (cases plain; done) | exact rest _ rfl (by simp [inner])
  | record r ih =>
    cases identifiable : r.layout.identifiable with
    | true => exact node r identifiable ih
    | false =>
      refine rest _ identifiable fun w member => ih w ?_
      simp only [inner] at member
      split at member
      · exact mem_of_mem_kept member
      · cases member
  | list items ih => exact rest _ rfl fun w member => ih w (by simpa [inner] using member)
  | map entries ih =>
    refine rest _ rfl fun w member => ?_
    obtain ⟨e, listed, same⟩ := mem_filterMap.mp member
    exact ih e.1 w (same ▸ listed)

end Value

theorem Field.value?_eq_some {α : Type} {f : Field α} {a : α} : f.value? = some a ↔ f = .value a := by
  cases f <;> simp [Field.value?]

namespace Acts

variable (schema : Schema)

/-- Elements are stored one after the other. -/
theorem ofItems_eq (items : List (Option Value)) :
    ofItems schema items = (items.filterMap id).flatMap (ofValue schema) := by
  induction items with
  | nil => rfl
  | cons item rest ih => cases item <;> simp [ofItems, ih]

/-- So are entries. -/
theorem ofEntries_eq (entries : List (String × Option Value)) :
    ofEntries schema entries = (entries.filterMap Prod.snd).flatMap (ofValue schema) := by
  induction entries with
  | nil => rfl
  | cons e rest ih =>
    rcases e with ⟨k, item⟩
    cases item <;> simp [ofEntries, ih]

/-- So are fields, without those of pure derivations. -/
theorem ofFields_eq (fields : List (Field Value)) (infos : List FieldInfo) :
    ofFields schema fields infos = (Value.kept fields infos).flatMap (ofValue schema) := by
  induction fields generalizing infos with
  | nil => cases infos <;> simp [ofFields, Value.kept]
  | cons f rest ih =>
    cases infos with
    | nil => cases f <;> simp [ofFields, Value.kept]
    | cons info infos =>
      cases f <;> cases pure : info.isPure <;>
        simp [ofFields, Value.kept, ih, pure, Field.value?]

/-- Storing a value that does not become a node does what storing the values inside it does. -/
theorem ofValue_eq (part : v.isNode = false) : ofValue schema v = v.inner.flatMap (ofValue schema) := by
  cases v with
  | record r =>
    rcases r with ⟨layout, fields⟩
    have anonymous : layout.identifiable = false := part
    cases holds : layout.containsIdentifiable <;> simp [ofValue, ofInline, Value.inner, ofFields_eq, anonymous, holds]
  | list items => rw [ofValue, ofItems_eq, Value.inner]
  | map entries => rw [ofValue, ofEntries_eq, Value.inner]
  | _ => simp [ofValue, Value.inner]

/-- A record is met before its fields are merged. -/
theorem ofRecord_eq (r : Record) : ofRecord schema r =
    .meet r :: merging schema r.key r.fields (schema.fieldsOf r.typeName) 0 := by
  rcases r with ⟨own, fields⟩
  rw [ofRecord]
  rfl

/-- What merging one field into the node of a key does. -/
def mergingField (key : Key) (i : Nat) (f : Field Value) (info : FieldInfo) : List Act :=
  if info.isPure || f.isAbsent then [] else
    (if info.mayLink then ofField schema f else []) ++ [.write ⟨key, i, f, info.mayLink⟩]

/-- Fields are merged one after the other. -/
theorem merging_cons (key : Key) (f : Field Value) (fields : List (Field Value)) (info : FieldInfo)
    (infos : List FieldInfo) (i : Nat) : merging schema key (f :: fields) (info :: infos) i =
      mergingField schema key i f info ++ merging schema key fields infos (i + 1) := by
  cases f <;> cases pure : info.isPure <;> simp [merging, mergingField, ofField, Field.isAbsent, pure]

theorem merging_nil (key : Key) (i : Nat) (finished : fields = [] ∨ infos = []) :
    merging schema key fields infos i = [] := by
  rcases finished with rfl | rfl
  · cases infos <;> simp only [merging]
  · rcases fields with _ | ⟨_ | _ | _, _⟩ <;> simp only [merging]

end Acts

namespace Graph

/-- Stores an element, which may be null. -/
def storeItem (root : NodeId) (depth : Nat) : Option Value → Step (Option Stored)
  | none => pure none
  | some v => some <$> store v root depth

/-- Storing a list stores each element. -/
theorem storeItems_eq (items : List (Option Value)) (root : NodeId) (depth : Nat) :
    storeItems items root depth = items.mapM (storeItem root depth) := by
  induction items with
  | nil => rfl
  | cons item rest ih => cases item <;> simp [storeItems, storeItem, ih]

/-- Storing a map stores each value under its key. -/
theorem storeEntries_eq (entries : List (String × Option Value)) (root : NodeId) (depth : Nat) :
    storeEntries entries root depth = entries.mapM fun e => Prod.mk e.1 <$> storeItem root depth e.2 := by
  induction entries with
  | nil => rfl
  | cons e rest ih => rcases e with ⟨k, _ | v⟩ <;> simp [storeEntries, storeItem, ih]

/-- Storing a part leaves out its pure derivations. -/
theorem storeFields_eq (fields : List (Field Value)) (infos : List FieldInfo) (root : NodeId) (depth : Nat) :
    storeFields fields infos root depth =
      (fields.zip infos).mapM fun e => if e.2.isPure then pure .absent else storeField e.1 root depth := by
  induction fields generalizing infos with
  | nil => cases infos <;> simp [storeFields]
  | cons f rest ih =>
    cases infos with
    | nil => cases f <;> simp [storeFields]
    | cons info infos => cases f <;> cases pure : info.isPure <;> simp [storeFields, storeField, ih, pure]

/-- Fields are merged one after the other, those that may link after they are stored. -/
theorem absorbFields_cons (f : Field Value) (fields : List (Field Value)) (info : FieldInfo) (infos : List FieldInfo)
    (id root : NodeId) (depth i : Nat) : absorbFields (f :: fields) (info :: infos) id root depth i =
      (if info.isPure || f.isAbsent then pure ()
        else (if info.mayLink then storeField f root depth else pure (Stored.plainField f)) >>= fun s =>
          Step.change fun g => g.setField id i s) >>= fun _ =>
        absorbFields fields infos id root depth (i + 1) := by
  cases f <;> cases pure : info.isPure <;> cases links : info.mayLink <;>
    simp [absorbFields, storeField, Stored.plainField, Field.isAbsent, pure, links]

theorem absorbFields_nil (id root : NodeId) (depth i : Nat) (finished : fields = [] ∨ infos = []) :
    absorbFields fields infos id root depth i = pure () := by
  rcases finished with rfl | rfl
  · cases infos <;> simp only [absorbFields]
  · rcases fields with _ | ⟨_ | _ | _, _⟩ <;> simp only [absorbFields]

end Graph

namespace Stored

/-- The stored values right inside one. -/
def inner : Stored → List Stored
  | .list items => items.filterMap id
  | .map entries => entries.filterMap Prod.snd
  | .inline r => r.fields.filterMap Field.value?
  | _ => []

section inner

variable {find find' : Key → Option NodeId} {s : Stored} {part : Option Stored}

/-- The stored form of an element, which may be null. -/
def ofItem? (find : Key → Option NodeId) : Option Value → Option (Option Stored)
  | none => some none
  | some v => (ofValue? find v).map some

/-- The stored form of an entry. -/
def ofPair? (find : Key → Option NodeId) (e : String × Option Value) : Option (String × Option Stored) :=
  (ofItem? find e.2).map (Prod.mk e.1)

/-- The stored form of a field, which is left out if it is a pure derivation. -/
def ofField? (find : Key → Option NodeId) (info : FieldInfo) : Field Value → Option (Field Stored)
  | .absent => some .absent
  | .null => some (if info.isPure then .absent else .null)
  | .value v => if info.isPure then some .absent else (ofValue? find v).map .value

theorem ofItems?_eq (items : List (Option Value)) : ofItems? find items = items.mapM (ofItem? find) := by
  induction items with
  | nil => rfl
  | cons item rest ih => cases item <;> simp [ofItems?, ofItem?, ih, Option.map_eq_bind, Option.bind_assoc]

theorem ofEntries?_eq (entries : List (String × Option Value)) :
    ofEntries? find entries = entries.mapM (ofPair? find) := by
  induction entries with
  | nil => rfl
  | cons e rest ih =>
    rcases e with ⟨k, _ | v⟩ <;> simp [ofEntries?, ofPair?, ofItem?, ih, Option.map_eq_bind, Option.bind_assoc]

theorem ofFields?_eq (fields : List (Field Value)) (infos : List FieldInfo) :
    ofFields? find fields infos = (fields.zip infos).mapM fun e => ofField? find e.2 e.1 := by
  induction fields generalizing infos with
  | nil => cases infos <;> simp [ofFields?]
  | cons f rest ih =>
    cases infos with
    | nil => cases f <;> simp [ofFields?]
    | cons info infos =>
      cases f <;> cases pure : info.isPure <;>
        simp [ofFields?, ofField?, ih, pure, Option.map_eq_bind, Option.bind_assoc]

/-- An element is stored as the image of its value. -/
theorem rel_ofItem? {item : Option Value} (image : ofItem? find item = some part) :
    Option.Rel (fun w t => ofValue? find w = some t) item part := by
  cases item with
  | none =>
    cases image
    exact .none
  | some w =>
    obtain ⟨t, stored, rfl⟩ := Option.map_eq_some_iff.mp image
    exact .some stored

/-- One field is stored for each, and nothing where a pure derivation stands. -/
theorem leftOut_ofFields? {stored : List (Field Stored)} (length : fields.length = infos.length)
    (found : ofFields? find fields infos = some stored) :
    List.Forall₂ (fun (info : FieldInfo) f => info.isPure = true → f = .absent) infos stored := by
  rw [ofFields?_eq, mapM_eq_some_iff] at found
  rw [← map_snd_zip (Nat.le_of_eq length.symm), forall₂_map_left_iff]
  refine found.imp fun e f image pure => ?_
  rcases e with ⟨_ | _ | v, info⟩ <;> simp_all [ofField?]

/-- A part of a record is stored field by field if there may be links in it, and as it is if not. -/
theorem of_ofValue?_record {layout : Layout} (anonymous : layout.identifiable = false)
    (stored : ofValue? find (.record ⟨layout, fields⟩) = some s) :
    (layout.containsIdentifiable = true ∧ ∃ parts, ofFields? find fields layout.fields = some parts ∧
      s = .inline ⟨layout, parts⟩) ∨
      layout.containsIdentifiable = false ∧ s = .plain (.record ⟨layout, fields⟩) := by
  simp only [ofValue?, anonymous, Bool.false_eq_true, if_false] at stored
  split at stored
  · rename_i holds
    simp only [ofRecord?, Option.bind_eq_bind, Option.map_eq_some_iff, Option.bind_eq_some_iff] at stored
    obtain ⟨_, ⟨parts, found, same⟩, rfl⟩ := stored
    cases same
    exact Or.inl ⟨holds, parts, found, rfl⟩
  · rename_i leaf
    exact Or.inr ⟨by simpa using leaf, (Option.some.inj stored).symm⟩

/-- What is stored of a value that does not become a node has the stored forms of the values inside it, and their
links. -/
theorem inner_ofValue? (part : v.isNode = false) (stored : ofValue? find v = some s) :
    List.Forall₂ (fun w t => ofValue? find w = some t) v.inner s.inner ∧
      ∀ c, c ∈ s.links ↔ ∃ t ∈ s.inner, c ∈ t.links := by
  cases v with
  | record r =>
    rcases of_ofValue?_record part stored with ⟨holds, parts, found, rfl⟩ | ⟨leaf, rfl⟩
    · simp only [Value.inner, holds, if_true, inner, links, recordLinks]
      rw [ofFields?_eq, mapM_eq_some_iff] at found
      refine ⟨forall₂_filterMap found fun e f image => ?_, fun c => by simp [mem_fieldLinks, Field.value?_eq_some]⟩
      -- A pure derivation is left out on both sides.
      rcases e with ⟨_ | _ | w, info⟩ <;> cases pure : info.isPure <;>
        simp only [ofField?, pure, if_true, Bool.false_eq_true, if_false, Option.some.injEq] at image
      case value.false =>
        obtain ⟨t, stored, rfl⟩ := Option.map_eq_some_iff.mp image
        exact .some stored
      all_goals
        subst image
        exact .none
    · simp [Value.inner, leaf, inner, links]
  | list items =>
    rw [ofValue?] at stored
    obtain ⟨parts, found, rfl⟩ := Option.map_eq_some_iff.mp stored
    rw [ofItems?_eq, mapM_eq_some_iff] at found
    exact ⟨forall₂_filterMap found fun _ _ image => rel_ofItem? image, fun c => by simp [links, mem_itemLinks, inner]⟩
  | map entries =>
    rw [ofValue?] at stored
    obtain ⟨parts, found, rfl⟩ := Option.map_eq_some_iff.mp stored
    rw [ofEntries?_eq, mapM_eq_some_iff] at found
    refine ⟨forall₂_filterMap found fun e f image => ?_, fun c => by simp [links, mem_entryLinks, inner]⟩
    obtain ⟨part, held, rfl⟩ := Option.map_eq_some_iff.mp image
    exact rel_ofItem? held
  | _ =>
    simp only [ofValue?, Option.some.injEq] at stored
    subst stored
    simp [Value.inner, inner, links]

/-- What is stored of a value that does not become a node is a matter of what is stored of the values inside it. -/
theorem ofValue?_congr (part : v.isNode = false) (same : ∀ w ∈ v.inner, ofValue? find' w = ofValue? find w) :
    ofValue? find' v = ofValue? find v := by
  cases v with
  | record r =>
    rcases r with ⟨layout, fields⟩
    have anonymous : layout.identifiable = false := part
    cases holds : layout.containsIdentifiable with
    | false => simp [ofValue?, anonymous, holds]
    | true =>
      simp only [Value.inner, holds, if_true] at same
      have fields : ofFields? find' fields layout.fields = ofFields? find fields layout.fields := by
        rw [ofFields?_eq, ofFields?_eq]
        refine mapM_congr fun e member => ?_
        rcases e with ⟨_ | _ | w, info⟩ <;> cases pure : info.isPure <;> simp only [ofField?, pure, if_true]
        rw [same w (mem_filterMap.mpr ⟨_, member, by simp [pure, Field.value?]⟩)]
      simp [ofValue?, ofRecord?, anonymous, holds, fields]
  | list items =>
    rw [ofValue?, ofValue?, ofItems?_eq, ofItems?_eq, mapM_congr fun item member => ?_]
    cases item with
    | none => rfl
    | some w => rw [ofItem?, ofItem?, same w (mem_filterMap.mpr ⟨_, member, rfl⟩)]
  | map entries =>
    rw [ofValue?, ofValue?, ofEntries?_eq, ofEntries?_eq, mapM_congr fun e member => ?_]
    rcases e with ⟨k, _ | w⟩
    · rfl
    · simp only [ofPair?, ofItem?, same w (mem_filterMap.mpr ⟨_, member, rfl⟩)]
  | _ => simp only [ofValue?]

/-- The stored form of a value stays the same as long as the nodes that it links to are found. -/
theorem ofValue?_of_finds (v : Value) (more : FindsAmong find find' s.links) (stored : ofValue? find v = some s) :
    ofValue? find' v = some s := by
  induction v using Value.induct_inner generalizing s with
  | node r identifiable _ =>
    simp only [ofValue?, identifiable, if_true, Option.map_eq_some_iff] at stored ⊢
    obtain ⟨id, found, rfl⟩ := stored
    exact ⟨id, more _ id (by simp [links]) found, rfl⟩
  | rest v part ih =>
    obtain ⟨parts, links⟩ := inner_ofValue? part stored
    rw [← stored]
    refine ofValue?_congr part fun w inside => ?_
    obtain ⟨t, there, image⟩ := exists_mem_of_forall₂ parts.flip inside
    exact (ih w inside (more.mono fun c link => (links c).mpr ⟨t, there, link⟩) image).trans image.symm

/-- Images stay when more is found. -/
theorem ofItem?_of_finds (item : Option Value) (more : Finds find find')
    (image : ofItem? find item = some part) : ofItem? find' item = some part := by
  cases item with
  | none => exact image
  | some v =>
    obtain ⟨s, stored, rfl⟩ := Option.map_eq_some_iff.mp image
    rw [ofItem?, ofValue?_of_finds v (more.among _) stored]
    rfl

theorem ofPair?_of_finds (e : String × Option Value) {part : String × Option Stored} (more : Finds find find')
    (image : ofPair? find e = some part) : ofPair? find' e = some part := by
  obtain ⟨item, held, rfl⟩ := Option.map_eq_some_iff.mp image
  rw [ofPair?, ofItem?_of_finds e.2 more held]
  rfl

theorem ofField?_of_finds (info : FieldInfo) (f : Field Value) {part : Field Stored} (more : Finds find find')
    (image : ofField? find info f = some part) : ofField? find' info f = some part := by
  cases f with
  | value v =>
    rw [ofField?] at image ⊢
    split
    · rwa [if_pos ‹_›] at image
    · rw [if_neg ‹_›] at image
      obtain ⟨s, stored, rfl⟩ := Option.map_eq_some_iff.mp image
      rw [ofValue?_of_finds v (more.among _) stored]
      rfl
  | _ => exact image

/-- The links in a stored value lead to the nodes of identifiable records that storing it meets. -/
theorem links_ofValue? {schema : Schema} (v : Value) (stored : ofValue? find v = some s) :
    ∀ c ∈ s.links, ∃ r, .meet r ∈ Acts.ofValue schema v ∧ r.layout.identifiable = true ∧ find r.key = some c := by
  induction v using Value.induct_inner generalizing s with
  | node r identifiable _ =>
    simp only [ofValue?, identifiable, if_true, Option.map_eq_some_iff] at stored
    obtain ⟨id, found, rfl⟩ := stored
    rcases r with ⟨own, fields⟩
    intro c member
    rw [links, mem_singleton] at member
    subst member
    refine ⟨_, ?_, identifiable, found⟩
    rw [Acts.ofValue, if_pos identifiable, Acts.ofRecord]
    exact mem_cons_self
  | rest v part ih =>
    obtain ⟨parts, links⟩ := inner_ofValue? part stored
    intro c member
    -- The link is in the stored form of one of the values inside.
    obtain ⟨t, inside, link⟩ := (links c).mp member
    obtain ⟨w, there, image⟩ := exists_mem_of_forall₂ parts inside
    obtain ⟨r, met, known⟩ := ih w there image c link
    rw [Acts.ofValue_eq schema part]
    exact ⟨r, mem_flatMap.mpr ⟨w, there, met⟩, known⟩

end inner

end Stored

section written

variable {find find' : Key → Option NodeId} {incoming : Field Stored}

variable {w : Write}

/-- What is written stays the same as long as the nodes that it links to are found. -/
theorem Write.image?_of_finds (more : FindsAmong find find' (Stored.fieldLinks [incoming]))
    (image : w.image? find = some incoming) : w.image? find' = some incoming := by
  rcases w with ⟨key, position, field, linking⟩
  unfold Write.image? at image ⊢
  cases field with
  | absent => exact image
  | null => exact image
  | value v =>
    cases linking with
    | false => exact image
    | true =>
      obtain ⟨s, stored, rfl⟩ := Option.map_eq_some_iff.mp image
      have links : FindsAmong find find' s.links := by simpa [Stored.fieldLinks] using more
      simp only [if_true, Stored.ofValue?_of_finds v links stored, Option.map_some]

/-- The links in what is written lead to the nodes of identifiable records that storing the field meets. -/
theorem Write.links_image? (schema : Schema) (image : w.image? find = some incoming) {c : NodeId}
    (link : c ∈ Stored.fieldLinks [incoming]) : w.linking = true ∧
      ∃ r, .meet r ∈ Acts.ofField schema w.field ∧ r.layout.identifiable = true ∧ find r.key = some c := by
  rcases w with ⟨key, position, field, linking⟩
  unfold Write.image? at image
  cases field with
  | absent => cases image; simp [Stored.fieldLinks] at link
  | null => cases image; simp [Stored.fieldLinks] at link
  | value v =>
    cases linking with
    | false => cases image; simp [Stored.fieldLinks, Stored.links] at link
    | true =>
      obtain ⟨s, stored, rfl⟩ := Option.map_eq_some_iff.mp image
      exact ⟨rfl, Stored.links_ofValue? v stored c (by simpa [Stored.fieldLinks] using link)⟩

end written

end EntityGraph
