import EntityGraph.Proofs.Json.Respelled
import EntityGraph.Proofs.Record.State

/-! A document holds all of a record.

The record that is read back from it is equal to the first one, and has the same document. Records are emitted by
their values and read by the kinds of their fields alone, and what stays off the wire is derived anew. -/

namespace EntityGraph

open List

variable {entries : List (String × Option Value)} {before : List (String × Json)} {kind : Kind}

/-- The value can be told from its name: it is listed under its own number, or it is not listed and has none. -/
def EnumValue.Told (e : EnumValue) (listed : Option Enumeration) : Prop :=
  (listed.bind fun l => l.idOf? e.name) = some e.id ∨ e.isDynamic = true ∧ (listed.bind fun l => l.idOf? e.name) = none

/-- A document holds all of a value at a place, which is a kind with a depth. The value has the shape of the kind and
fits the limits of readers, doubles are finite, values of enumerations can be told from their names, records in open
positions are members with no field in the place of their type name, and unknown records are of no member's type. Each
record is one of the schema and as asked. -/
def Schema.portable (s : Schema) (asked : Record → Prop) : Requirement (Kind × Nat) Prop where
  nothing := True
  both := And
  leaf
    | .bool _, (.bool, _) => True
    | .int _, (.int, _) => True
    | .double x, (.double, _) => x.isFinite = true
    | .text _, (.text, _) => True
    | .enum e, (.enum name, _) => e.Told (s.enum? name)
    | .unknown u, (.openType name, _) => s.member? name u.name = none
    | _, _ => False
  atList
    | items, (.list k, depth), elements => items.length ≤ Limits.collectionItems ∧ elements (k, depth + 1)
    | _, _, _ => False
  -- The keys of a map are in order, as every map keeps them.
  atMap
    | entries, (.map k, depth), values =>
      entries.length ≤ Limits.collectionItems ∧ (entries.map Prod.fst).Pairwise (· < ·) ∧ values (k, depth + 1)
    | _, _, _ => False
  atRecord
    | r, (.record name, depth), inside => r.layout.name = name ∧ inside (.record r.layout.name, depth + 1)
    | r, (.openType name, depth), inside =>
      (s.member? name r.layout.name).isSome = true ∧ (∀ f ∈ r.layout.fields, f.name ≠ Emit.typeNameKey) ∧
        inside (.record r.layout.name, depth + 1)
    | _, _, _ => False
  whole r place fields :=
    place.2 ≤ Limits.depth ∧ s.type? r.layout.name = some r.layout ∧ r.fields.length = r.layout.fields.length ∧
      asked r ∧ fields
  atField
    | _, some f, (_, depth), value => value (f.kind, depth)
    | _, none, _, _ => True

/-- A document holds all of the value at a position of the kind. -/
def Value.Portable (s : Schema) (asked : Record → Prop) (v : Value) (k : Kind) (depth : Nat) : Prop :=
  (s.portable asked).value v (k, depth)

/-- A document holds all of the record, which is one of the schema and as asked. -/
def recordPortable (s : Schema) (asked : Record → Prop) (r : Record) (depth : Nat) : Prop :=
  (s.portable asked).record r (.record r.layout.name, depth)

theorem Schema.portable_conjoins {s : Schema} {asked : Record → Prop} :
    (s.portable asked).Conjoins fun answer => answer :=
  ⟨trivial, fun _ _ => Iff.rfl⟩

/-! ### Derivations of what was read -/

/-- The record can do without the fields that are left off the wire, since a reader derives them. -/
structure RecordOf.Rederivable (F : Formulas) (r : Record) : Prop where
  /-- They are what their derivations compute from the record, in one spelling or another. -/
  derived : r.HasDerived (fun h g => h.respelled = g.respelled) F
  /-- Their formulas do not look at the spelling of unknown records in the record. A reader has these in a spelling of
  its own. -/
  blind : ∀ f ∈ r.layout.fields, f.onWire = false → ∀ inputs formula, f.derivation = some (.computed inputs formula) →
    ∀ read : String → Field Value, (∀ name, (read name).respelled = (r.field name).respelled) →
      (F.pure formula read).respelled = (F.pure formula r.field).respelled

theorem RecordOf.respelled_eq_iff {r r' : Record} : r'.respelled = r.respelled ↔
    r'.layout = r.layout ∧ r'.fields.map Field.respelled = r.fields.map Field.respelled := by
  rcases r with ⟨layout, fields⟩
  rcases r' with ⟨layout', fields'⟩
  simp only [RecordOf.respelled, recordMapUnknown, fieldsMapUnknown_eq_map, RecordOf.mk.injEq]
  exact Iff.rfl

namespace RecordOf

variable {F : Formulas} {r r' : Record}

/-- A derivation off the wire computes the same, up to spellings, from fields that are the same so far. -/
theorem Rederivable.evaluate?_respelled (rederivable : r.Rederivable F) {f : FieldInfo}
    (member : f ∈ r.layout.fields) (offWire : f.onWire = false) {d : Derivation} (derives : f.derivation = some d)
    {read : String → Field Value} (same : ∀ name, (read name).respelled = (r.field name).respelled) :
    (d.evaluate? F read).map Field.respelled = (d.evaluate? F r.field).map Field.respelled := by
  cases d with
  | firstOf sources =>
    have inputs : (sources.map read).map Field.respelled = (sources.map r.field).map Field.respelled := by
      rw [map_map, map_map]
      exact map_congr_left fun name _ => same name
    -- Which source comes first does not depend on spellings.
    have first : ∀ fields, (Derivation.firstAvailable fields).respelled =
        Derivation.firstAvailable (fields.map Field.respelled) := fun fields =>
      (Derivation.firstAvailable_mapUnknown fields).symm
    simp only [Derivation.evaluate?, Option.map_some, first, inputs]
  | computed inputs formula =>
    have blind := rederivable.blind f member offWire inputs formula derives read same
    simp only [Derivation.evaluate?, Option.map_some, blind]
  | contextual formula => rfl

/-- Deriving a field off the wire once more leaves a record as it is, up to spellings. -/
theorem Rederivable.respelled_deriveAt (rederivable : r.Rederivable F) (same : r'.respelled = r.respelled) {i : Nat}
    (offWire : (r.layout.fields[i]?.any fun f => f.onWire) = false) : (r'.deriveAt F i).respelled = r.respelled := by
  obtain ⟨layout, fields⟩ := respelled_eq_iff.mp same
  have read : ∀ name, (r'.field name).respelled = (r.field name).respelled := by
    intro name
    -- The field of a name is found by its position in the layout.
    have both : r'.respelled.field name = r.respelled.field name := by rw [same]
    rwa [respelled, respelled, field_mapUnknown, field_mapUnknown] at both
  -- A position without a pure derivation stays as it is.
  unfold deriveAt
  split
  · rename_i g' evaluated
    obtain ⟨d, derivation, computed'⟩ := Option.bind_eq_some_iff.mp evaluated
    obtain ⟨f, found, derives⟩ := Option.bind_eq_some_iff.mp derivation
    rw [layout] at found
    rw [found, Option.any_some] at offWire
    -- The derivation computes from the first record what that record already has.
    have results := rederivable.evaluate?_respelled (mem_of_getElem? found) offWire derives read
    rw [computed', Option.map_some] at results
    obtain ⟨g, computed, spelled⟩ := Option.map_eq_some_iff.mp results.symm
    obtain ⟨h, there, old⟩ := rederivable.derived i f d g found offWire derives computed
    refine respelled_eq_iff.mpr ⟨layout, ?_⟩
    rw [map_set, fields, ← spelled]
    -- So the field is replaced by itself.
    apply ext_getElem?
    intro j
    by_cases here : i = j
    · subst here
      rw [getElem?_set_self', getElem?_map, there, Option.map_some, old]
      rfl
    · rw [getElem?_set_ne here]
  · exact same

/-- So does deriving all of them. -/
theorem Rederivable.respelled_deriveOffWire (rederivable : r.Rederivable F) (same : r'.respelled = r.respelled) :
    (r'.deriveOffWire F).respelled = r.respelled := by
  unfold deriveOffWire
  rw [(respelled_eq_iff.mp same).1]
  -- Each derivation meets a record that is the first one up to spellings, and leaves one.
  generalize positions : (r.layout.deriveOrder.filter fun i => !(r.layout.fields[i]?.any fun f => f.onWire)) = order
  have offWire : ∀ i ∈ order, (r.layout.fields[i]?.any fun f => f.onWire) = false := by
    intro i member
    rw [← positions] at member
    simpa using (mem_filter.mp member).2
  clear positions
  induction order generalizing r' with
  | nil => exact same
  | cons i rest ih =>
    have next := rederivable.respelled_deriveAt same (offWire i mem_cons_self)
    exact ih next fun j member => offWire j (.tail _ member)

end RecordOf

/-! ### Records of the schema -/

section Owned

variable {s : Schema} {asked : Record → Prop}

/-- A record that a document holds is one of the schema if its values are. -/
theorem recordPortable.owns_of {r : Record} {depth : Nat} (portable : recordPortable s asked r depth)
    (each : ∀ v, .value v ∈ r.fields → ∀ kind depth, v.Portable s asked kind depth → s.owns v = true) :
    s.ownsRecord r = true := by
  rcases r with ⟨layout, fields⟩
  obtain ⟨-, type, sized, -, inner⟩ := portable
  refine Schema.ownsRecord_iff.mpr ⟨type, sized, fun f member => ?_⟩
  cases f with
  | value v =>
    obtain ⟨i, here⟩ := mem_iff_getElem?.mp member
    -- There is a description for each field, and it says at which kind the value is portable.
    have described : layout.fields[i]? = some _ :=
      getElem?_eq_getElem (sized ▸ (List.getElem?_eq_some_iff.mp here).1)
    have inside := Schema.portable_conjoins.fields_iff.mp inner i v here
    rw [described] at inside
    exact each v member _ depth inside
  | null | absent => rfl

/-- A value that a document holds is one of the schema. -/
theorem Value.Portable.owns (v : Value) (kind : Kind) (depth : Nat) (portable : v.Portable s asked kind depth) :
    s.owns v = true := by
  induction v using Value.induct generalizing kind depth with
  | scalar v plain => cases v <;> first | rfl | cases plain
  | record r ih =>
    cases kind with
    | record name => exact recordPortable.owns_of portable.2 ih
    | openType name => exact recordPortable.owns_of portable.2.2 ih
    | _ => exact False.elim portable
  | list items ih =>
    cases kind with
    | list k =>
      have inside := Schema.portable_conjoins.items_iff.mp portable.2
      exact Schema.owns_list.mpr fun v member => ih v member k (depth + 1) (inside v member)
    | _ => exact False.elim portable
  | map entries ih =>
    cases kind with
    | map k =>
      have inside := Schema.portable_conjoins.entries_iff.mp portable.2.2
      exact Schema.owns_map.mpr fun key v member => ih key v member k (depth + 1) (inside key v member)
    | _ => exact False.elim portable

theorem recordPortable.owns {r : Record} {depth : Nat} (portable : recordPortable s asked r depth) :
    s.ownsRecord r = true :=
  portable.owns_of fun v _ kind depth => Value.Portable.owns v kind depth

end Owned

/-! ### Reading what was emitted -/

namespace Emit

/-- The keys of entries in order are the keys of their members. -/
theorem keys_entryMembers (flag : Bool) (sorted : (before.map Prod.fst ++ entries.map Prod.fst).Pairwise (· < ·)) :
    (entryMembers flag entries kind before).map Prod.fst = before.map Prod.fst ++ entries.map Prod.fst := by
  induction entries generalizing before with
  | nil => simp [entryMembers]
  | cons e rest ih =>
    rcases e with ⟨k, v⟩
    have last : ∀ b ∈ before, b.1 < k := fun b member =>
      (pairwise_append.mp sorted).2.2 b.1 (mem_map_of_mem member) k (by simp)
    -- Each entry is bound behind those before it.
    have step : ∀ j, (entryMembers flag rest kind (Entries.insert k j before)).map Prod.fst =
        before.map Prod.fst ++ k :: rest.map Prod.fst := by
      intro j
      rw [Entries.insert_of_lt last, ih (by simpa using sorted)]
      simp
    cases v with
    | none => rw [entryMembers, step, map_cons]
    | some v => rw [entryMembers, step, map_cons]

end Emit

namespace DocumentReader

variable {F : Formulas} {s : Schema} {depth : Nat} {name : String} {members : List (String × Json)}
  {j : Json} {v : Option Value} {draft : Draft} {items : List (Option Value)} {site : Site} {element : Kind}

theorem enumValue_of_told {e : EnumValue} (told : e.Told (s.enum? name)) : enumValue s name e.name = e := by
  -- A listed name gives its number, and any other name the number zero.
  rcases told with listed | ⟨dynamic, unlisted⟩
  · rw [enumValue, listed]
  · rw [enumValue, unlisted]
    have zero : e.id = 0 := by simpa [EnumValue.isDynamic] using dynamic
    rcases e with ⟨id, name⟩
    cases zero
    rfl

/-- The members have been read into an empty draft as the fields in front, and the remaining fields are still absent. -/
structure Filled (F : Formulas) (s : Schema) (layout : Layout) (depth : Nat)
    (members : List (String × Json)) (front : List (Field Value)) (remaining : List FieldInfo) : Prop where
  accepted : layout.Accepted
  aligned : layout.fields.drop front.length = remaining
  sorted : members.Pairwise fun a b => a.1 < b.1
  read : ∃ draft, fields F s members depth (Draft.new layout) = .ok draft ∧
    draft.raw = ⟨layout, front ++ List.replicate remaining.length .absent⟩

section Filled

variable {layout : Layout} {front : List (Field Value)}
  {info : FieldInfo} {remaining : List FieldInfo}

section

variable (filled : Filled F s layout depth members front (info :: remaining))
include filled

/-- A member for the next field fills it in. -/
theorem Filled.next (here : value F s j ⟨layout.name, info.name⟩ info.kind depth = .ok v) :
    Filled F s layout depth (Entries.insert info.name j members) (front ++ [.ofOption v]) remaining where
  accepted := filled.accepted
  aligned := by rw [length_append, length_singleton, ← drop_drop, filled.aligned]; rfl
  sorted := Entries.pairwise_insert filled.sorted
  read := by
    -- The next field stands behind those in front, and its name leads there.
    have found : layout.fields[front.length]? = some info := by
      rw [← head?_drop, filled.aligned, head?_cons]
    have position := filled.accepted.indexOf?_name found
    obtain ⟨draft, read, raw⟩ := filled.read
    have same : draft.layout = layout := congrArg RecordOf.layout raw
    have there : draft.fields = _ := congrArg RecordOf.fields raw
    subst same
    refine ⟨draft.put front.length (.ofOption v), ?_, ?_⟩
    · -- The member may stand anywhere among the others; reading it last gives the same.
      refine fields_insert filled.sorted read ?_
      rw [fields_known position found]
      exact Except.bind_eq_ok.mpr ⟨v, here, rfl⟩
    · simp [Draft.raw, Draft.put, there, replicate_succ]

/-- The next field may stay absent. -/
theorem Filled.skip :
    Filled F s layout depth members (front ++ [.absent]) remaining where
  accepted := filled.accepted
  aligned := by rw [length_append, length_singleton, ← drop_drop, filled.aligned]; rfl
  sorted := filled.sorted
  read := by
    obtain ⟨draft, read, raw⟩ := filled.read
    exact ⟨draft, read, by simp [raw, replicate_succ]⟩

end

end Filled

/-- The document of an unknown record is read in the reader's spelling. -/
theorem value_unknown {u : Unknown} (foreign : s.member? name u.name = none) (site : Site) (depth : Nat) :
    value F s (Emit.value true (.unknown u) (.openType name)) site (.openType name) depth =
      .ok (some (.unknown u.respelled)) := by
  rw [Emit.value, value]
  -- The type name tells that the record is unknown, and is not kept among the members.
  simp only [Entries.find?_insert_self, foreign, unknown, Entries.erase_insert]
  rfl

/-- An object in a position of a record type is read into a draft of this type. -/
theorem value_record {layout : Layout} (type : s.type? name = some layout) (shallow : depth + 1 ≤ Limits.depth)
    (read : fields F s members (depth + 1) (Draft.new layout) = .ok draft) (site : Site) :
    value F s (.object members) site (.record name) depth = .ok (some (.record (draft.buildRead F))) := by
  rw [value]
  simp only [type, start, if_neg (Nat.not_lt.mpr shallow)]
  exact Except.bind_eq_ok.mpr ⟨_, rfl, Except.bind_eq_ok.mpr ⟨draft, read, rfl⟩⟩

/-- An object in an open position that names a member is read into a draft of this member. -/
theorem value_member {typeName : String} {layout : Layout}
    (named : Entries.find? Emit.typeNameKey members = some (.string typeName))
    (type : s.member? name typeName = some layout) (shallow : depth + 1 ≤ Limits.depth)
    (read : fields F s members (depth + 1) (Draft.new layout) = .ok draft) (site : Site) :
    value F s (.object members) site (.openType name) depth = .ok (some (.record (draft.buildRead F))) := by
  rw [value]
  simp only [named, type, start, if_neg (Nat.not_lt.mpr shallow)]
  exact Except.bind_eq_ok.mpr ⟨_, rfl, Except.bind_eq_ok.mpr ⟨draft, read, rfl⟩⟩

theorem value_list {js : List Json} (bounded : js.length ≤ Limits.collectionItems)
    (read : DocumentReader.items F s js site element (depth + 1) = .ok items) :
    value F s (.array js) site (.list element) depth = .ok (some (.list items)) := by
  rw [value, if_neg (Nat.not_lt.mpr bounded), read]
  rfl

/-- An object in a position of a map is read member by member. -/
theorem value_map (bounded : members.length ≤ Limits.collectionItems) (sorted : members.Pairwise fun a b => a.1 < b.1)
    (each : List.Forall₂ (EntryRead F s site element (depth + 1)) members entries) :
    value F s (.object members) site (.map element) depth = .ok (some (.map entries)) := by
  have read : DocumentReader.entries F s members site element (depth + 1) [] = .ok ([] ++ entries) :=
    entries_of_forall₂ sorted (by simp) each
  rw [value]
  simp only [if_neg (Nat.not_lt.mpr bounded), read]
  rfl

/-- Members that were read and one more, with a key behind theirs. -/
theorem forall₂_insert {front : List (String × Option Value)} {k : String} {keys : List String}
    (sorted : (before.map Prod.fst ++ k :: keys).Pairwise (· < ·))
    (each : List.Forall₂ (EntryRead F s site kind depth) before front) (here : value F s j site kind depth = .ok v) :
    List.Forall₂ (EntryRead F s site kind depth) (Entries.insert k j before) (front ++ [(k, v)]) ∧
      ((Entries.insert k j before).map Prod.fst ++ keys).Pairwise (· < ·) := by
  have last : ∀ b ∈ before, b.1 < k := fun b member =>
    (pairwise_append.mp sorted).2.2 b.1 (mem_map_of_mem member) k mem_cons_self
  rw [Entries.insert_of_lt last]
  exact ⟨rel_append each (.cons ⟨rfl, here⟩ .nil), by simpa using sorted⟩

/-- The document of the value is read as that value, up to spellings, wherever a document holds all of it. -/
def ReadsBack (F : Formulas) (s : Schema) (v : Value) : Prop :=
  ∀ kind site depth, v.Portable s (RecordOf.Rederivable F) kind depth →
    ∃ v', value F s (Emit.value true v kind) site kind depth = .ok (some v') ∧ v'.respelled = v.respelled

/-- The documents of values without parts are read back. -/
theorem readsBack_scalar {v : Value} (plain : v.isScalar = true) : ReadsBack F s v := by
  intro kind site depth portable
  -- A value that has not the shape of its kind is not portable.
  cases v <;> cases kind <;> first | (cases plain; done) | (exact False.elim portable) | skip
  case bool.bool b => exact ⟨.bool b, rfl, rfl⟩
  case int.int n =>
    -- A number of sixty-four bits is in the range that the reader asks for.
    have bounds : Int64.minValue.toInt ≤ n.toInt ∧ n.toInt ≤ Int64.maxValue.toInt :=
      ⟨n.minValue_le_toInt, n.toInt_le⟩
    refine ⟨.int n, ?_, rfl⟩
    rw [Emit.value, value, number]
    simp only [Number.int64?, if_pos bounds, Int64.ofInt_toInt]
    rfl
  case double.double x =>
    have finite : x.isFinite = true := portable
    refine ⟨.double x, ?_, rfl⟩
    -- A double that is not finite would be null.
    rw [Emit.value, if_pos finite]
    rfl
  case text.text s => exact ⟨.text s, rfl, rfl⟩
  case enum.enum e name =>
    refine ⟨.enum e, ?_, rfl⟩
    rw [Emit.value, value, string, enumValue_of_told portable]
    rfl
  case unknown.openType u name =>
    refine ⟨.unknown u.respelled, value_unknown portable site depth, ?_⟩
    exact congrArg Value.unknown u.respelled_respelled

/-- Fields are read into a draft that has been filled in up to their positions. -/
theorem fields_documents {layout : Layout} {values : List (Field Value)}
    (each : ∀ v, .value v ∈ values → ReadsBack F s v) {infos : List FieldInfo} {before : List (String × Json)}
    {front : List (Field Value)} (filled : Filled F s layout depth before front infos)
    (sized : values.length = infos.length)
    (portable : (s.portable (RecordOf.Rederivable F)).fields layout values infos (.record layout.name, depth)) :
    ∃ new, Filled F s layout depth (Emit.fieldMembers true values infos before) (front ++ new) [] ∧
      fieldsMapUnknown Unknown.respelled new = fieldsMapUnknown Unknown.respelled values := by
  induction values generalizing infos before front with
  | nil =>
    cases infos with
    | nil => exact ⟨[], by simpa [Emit.fieldMembers] using filled, rfl⟩
    | cons => cases sized
  | cons f rest ih =>
    cases infos with
    | nil => cases sized
    | cons info infos =>
      have later := @ih fun v member => each v (.tail _ member)
      cases f with
      | value v =>
        obtain ⟨v', here, same⟩ := each v mem_cons_self info.kind ⟨layout.name, info.name⟩ depth portable.1
        obtain ⟨new, following, others⟩ := later (filled.next here) (Nat.succ.inj sized) portable.2
        refine ⟨.value v' :: new, ?_, ?_⟩
        · simpa [Emit.fieldMembers, Emit.leavesOut, Field.ofOption] using following
        · simp only [fieldsMapUnknown, others]
          exact congrArg (fun v => Field.value v :: _) same
      | null =>
        -- Null stands for a field without a value, whatever the kind.
        have here : value F s .null ⟨layout.name, info.name⟩ info.kind depth = .ok none := rfl
        obtain ⟨new, following, others⟩ := later (filled.next here) (Nat.succ.inj sized) portable
        refine ⟨.null :: new, ?_, by simp only [fieldsMapUnknown, others]⟩
        simpa [Emit.fieldMembers, Emit.leavesOut, Field.ofOption] using following
      | absent =>
        obtain ⟨new, following, others⟩ := later filled.skip (Nat.succ.inj sized) portable
        refine ⟨.absent :: new, ?_, by simp only [fieldsMapUnknown, others]⟩
        simpa [Emit.fieldMembers] using following

/-- The members of a record, behind members that fill in nothing, are read as its fields. -/
theorem record_document (accepted : s.Accepted) {r : Record}
    (each : ∀ v, .value v ∈ r.fields → ReadsBack F s v) {before : List (String × Json)}
    (portable : recordPortable s (RecordOf.Rederivable F) r depth) (sorted : before.Pairwise fun a b => a.1 < b.1)
    (passed : fields F s before depth (Draft.new r.layout) = .ok (Draft.new r.layout)) :
    s.type? r.layout.name = some r.layout ∧ depth ≤ Limits.depth ∧ ∃ draft,
      fields F s (Emit.record true r before) depth (Draft.new r.layout) = .ok draft ∧
        (draft.buildRead F).respelled = r.respelled := by
  rcases r with ⟨layout, values⟩
  obtain ⟨shallow, type, sized, rederivable, inner⟩ := portable
  have empty : Filled F s layout depth before [] layout.fields :=
    ⟨accepted _ _ type, rfl, sorted, _, passed, rfl⟩
  obtain ⟨new, filled, same⟩ := fields_documents each empty sized inner
  obtain ⟨draft, read, raw⟩ := filled.read
  have raw : draft.raw.respelled = RecordOf.respelled ⟨layout, values⟩ := by
    simp [raw, RecordOf.respelled, recordMapUnknown, same]
  refine ⟨type, shallow, draft, read, ?_⟩
  -- The derivations run on fields that were all read, so each finds what it found in the first record.
  exact rederivable.respelled_deriveOffWire raw

/-- The document of a record is read back, at a position for its type or an open one. -/
theorem readsBack_record (accepted : s.Accepted) {r : Record}
    (each : ∀ v, .value v ∈ r.fields → ReadsBack F s v) : ReadsBack F s (.record r) := by
  intro kind site depth portable
  cases kind with
  | record name =>
    obtain ⟨rfl, inner⟩ : r.layout.name = name ∧ recordPortable s _ r (depth + 1) := portable
    obtain ⟨type, shallow, draft, read, same⟩ := record_document accepted each inner .nil rfl
    exact ⟨_, value_record type shallow read site, congrArg Value.record same⟩
  | openType name =>
    obtain ⟨member, untagged, inner⟩ : (s.member? name r.layout.name).isSome = true ∧
      (∀ f ∈ r.layout.fields, f.name ≠ Emit.typeNameKey) ∧ recordPortable s _ r (depth + 1) := portable
    obtain ⟨layout, found⟩ := Option.isSome_iff_exists.mp member
    -- The type name is no field's, so the draft does not see it.
    have passed : fields F s [(Emit.typeNameKey, .string r.layout.name)] (depth + 1)
        (Draft.new r.layout) = .ok (Draft.new r.layout) := by
      rw [fields_unknown]
      · rfl
      · exact findIdx?_eq_none_iff.mpr fun f there => by simpa using untagged f there
    obtain ⟨type, shallow, draft, read, same⟩ :=
      record_document accepted each inner (pairwise_singleton _ _) passed
    cases (Schema.type?_of_member? found).symm.trans type
    -- No field has the key of the type name, so the reader finds what was put there first.
    have named : Entries.find? Emit.typeNameKey
        (Emit.record true r [(Emit.typeNameKey, .string r.layout.name)]) = some (.string r.layout.name) := by
      rcases r with ⟨layout, values⟩
      rw [Emit.record, Emit.find?_fieldMembers_of_ne _ _ _ _ untagged]
      simp [Entries.find?]
    exact ⟨_, value_member named found shallow read site, congrArg Value.record same⟩
  | _ => exact False.elim portable

/-- The documents of elements are read one by one. -/
theorem items_documents (each : ∀ v, some v ∈ items → ReadsBack F s v) (site : Site)
    (portable : (s.portable (RecordOf.Rederivable F)).items items (kind, depth)) :
    ∃ items', (Emit.itemDocuments true items kind).length = items.length ∧
      DocumentReader.items F s (Emit.itemDocuments true items kind) site kind depth = .ok items' ∧
        itemsMapUnknown Unknown.respelled items' = itemsMapUnknown Unknown.respelled items := by
  induction items with
  | nil => exact ⟨[], rfl, rfl, rfl⟩
  | cons item rest ih =>
    have later := ih fun v member => each v (.tail _ member)
    cases item with
    | none =>
      obtain ⟨rest', length, following, others⟩ := later portable
      refine ⟨none :: rest', by simp [Emit.itemDocuments, length], ?_, by simp only [itemsMapUnknown, others]⟩
      rw [Emit.itemDocuments, DocumentReader.items, following]
      rfl
    | some v =>
      obtain ⟨v', here, same⟩ := each v mem_cons_self kind site depth portable.1
      obtain ⟨rest', length, following, others⟩ := later portable.2
      refine ⟨some v' :: rest', by simp [Emit.itemDocuments, length], ?_, ?_⟩
      · rw [Emit.itemDocuments, DocumentReader.items, here, following]
        rfl
      · simp only [itemsMapUnknown, others]
        exact congrArg (fun v => some v :: _) same

/-- The members of entries are read one by one, behind those before them. -/
theorem entries_documents {entries : List (String × Option Value)}
    (each : ∀ k v, (k, some v) ∈ entries → ReadsBack F s v) {front : List (String × Option Value)}
    (sorted : (before.map Prod.fst ++ entries.map Prod.fst).Pairwise (· < ·))
    (portable : (s.portable (RecordOf.Rederivable F)).entries entries (kind, depth))
    (read : List.Forall₂ (EntryRead F s site kind depth) before front) :
    ∃ new, List.Forall₂ (EntryRead F s site kind depth) (Emit.entryMembers true entries kind before)
      (front ++ new) ∧ entriesMapUnknown Unknown.respelled new = entriesMapUnknown Unknown.respelled entries := by
  induction entries generalizing before front with
  | nil => exact ⟨[], by simpa [Emit.entryMembers] using read, rfl⟩
  | cons e rest ih =>
    have behind := fun k v member => each k v (.tail _ member)
    rcases e with ⟨k, _ | v⟩
    · -- Null stands for an entry without a value, whatever the kind.
      have here : value F s .null site kind depth = .ok none := rfl
      obtain ⟨next, inOrder⟩ := forall₂_insert sorted read here
      obtain ⟨new, following, others⟩ := ih behind inOrder portable next
      exact ⟨(k, none) :: new, by simpa [Emit.entryMembers] using following, by simp only [entriesMapUnknown, others]⟩
    · obtain ⟨v', here, same⟩ := each k v mem_cons_self kind site depth portable.1
      obtain ⟨next, inOrder⟩ := forall₂_insert sorted read here
      obtain ⟨new, following, others⟩ := ih behind inOrder portable.2 next
      refine ⟨(k, some v') :: new, by simpa [Emit.entryMembers] using following, ?_⟩
      simp only [entriesMapUnknown, others]
      exact congrArg (fun v => (k, some v) :: _) same

/-- The document of a map is read back. -/
theorem readsBack_map {entries : List (String × Option Value)}
    (each : ∀ k v, (k, some v) ∈ entries → ReadsBack F s v) : ReadsBack F s (.map entries) := by
  intro kind site depth portable
  cases kind with
  | map element =>
    obtain ⟨bounded, sorted, inner⟩ := portable
    have nothing : List.Forall₂ (EntryRead F s site element (depth + 1)) [] [] := .nil
    obtain ⟨entries', read, same⟩ := entries_documents each (by simpa using sorted) inner nothing
    -- The members have the keys of the entries, so there are as many, in the same order.
    have keys : (Emit.entryMembers true entries element []).map Prod.fst = entries.map Prod.fst :=
      Emit.keys_entryMembers true sorted
    have length : (Emit.entryMembers true entries element []).length = entries.length := by
      simpa using congrArg List.length keys
    have inOrder := pairwise_map.mp (keys ▸ sorted)
    exact ⟨.map entries', value_map (length ▸ bounded) inOrder read, congrArg Value.map same⟩
  | _ => exact False.elim portable

/-- The document of every value is read back. -/
theorem readsBack (accepted : s.Accepted) (v : Value) : ReadsBack F s v := by
  induction v using Value.induct with
  | scalar v plain => exact readsBack_scalar plain
  | record r ih => exact readsBack_record accepted ih
  | list items ih =>
    intro kind site depth portable
    cases kind with
    | list element =>
      obtain ⟨items', length, read, same⟩ := items_documents ih site portable.2
      exact ⟨.list items', value_list (length ▸ portable.1) read, congrArg Value.list same⟩
    | _ => exact False.elim portable
  | map entries ih => exact readsBack_map ih

end DocumentReader

/-- A record comes back from its document. The record that is read is equal in state to the first one, it is the same in
all but the bodies of unknown records, and it has the same document, with its dangerous fields or without. -/
theorem RecordOf.toRecord_toJson {serial : Nat} {d : Declarations} {s : Schema} {F : Formulas}
    (compiled : Schema.compile serial d = .ok s) {t : Record}
    (portable : recordPortable s (RecordOf.Rederivable F) t 0) :
    ∃ t', (t.toJson true).toRecord F s t.typeName = .ok t' ∧ t'.equals .state t = true ∧
      recordBare t' = recordBare t ∧ ∀ includeDangerous, t'.toJson includeDangerous = t.toJson includeDangerous := by
  have accepted : s.Accepted := fun _ _ found => Schema.accepted_of_type? compiled found
  obtain ⟨type, -, draft, read, same⟩ :=
    DocumentReader.record_document accepted (fun v _ => DocumentReader.readsBack accepted v) portable .nil rfl
  -- What differs in spellings alone does not differ for comparisons and documents.
  have bare := recordBare_eq_of_respelled same
  refine ⟨draft.buildRead F, ?_, ?_, bare, RecordOf.toJson_eq_of_respelled same⟩
  · -- The reader starts from an empty draft of the record's own type.
    have typed : s.type? t.typeName = some t.layout := type
    unfold Json.toRecord
    rw [typed]
    unfold DocumentReader.record
    exact Except.bind_eq_ok.mpr ⟨Draft.new t.layout, rfl, Except.bind_eq_ok.mpr ⟨draft, read, rfl⟩⟩
  · rw [RecordOf.equals_of_bare bare]
    exact recordEquals_refl accepted t portable.owns

/-- A workshop with a part, a pause of an unknown type in a loose spelling, and a missing part. -/
def Json.workshop : Record :=
  Wire.event (.value (.text "day"))
    (.value (.list [some (.record (Wire.event .null .absent .absent)),
      some (.unknown ⟨"Pause", .json "\x7b \"b\" : 1, \"a\" : [ 2.50 ] \x7d"⟩), none]))
    (.value (.double ⟨0x8000000000000000⟩))

theorem Json.rederivable_event (title parts weight : Field Value) :
    (Wire.event title parts weight).Rederivable Wire.titleFormulas where
  derived := Wire.hasDerived_event rfl rfl
  blind _ _ _ _ _ _ _ same := same "title"

theorem Json.portable_workshop :
    recordPortable Wire.eventSchema (RecordOf.Rederivable Wire.titleFormulas) workshop 0 := by
  have part : (Wire.eventSchema.member? "Part" "Event").isSome = true := by decide +kernel
  have pause : Wire.eventSchema.member? "Part" "Pause" = none := by decide +kernel
  have type : Wire.eventSchema.type? "Event" = some Wire.eventLayout := by decide +kernel
  have untagged : ∀ f ∈ Wire.eventLayout.fields, f.name ≠ Emit.typeNameKey := by decide +kernel
  -- The part stands two levels below the workshop, since its list counts.
  have inner : recordPortable Wire.eventSchema (RecordOf.Rederivable Wire.titleFormulas)
      (Wire.event .null .absent .absent) 2 :=
    ⟨by decide, type, rfl, rederivable_event _ _ _, trivial⟩
  have finite : (Double.mk 0x8000000000000000).isFinite = true := by decide +kernel
  exact ⟨by decide, type, rfl, rederivable_event _ _ _, trivial, trivial,
    ⟨by decide, ⟨part, untagged, inner⟩, pause, trivial⟩, finite, trivial⟩

/-- The workshop comes back from its document. -/
theorem Json.toRecord_toJson_workshop : ∃ t',
    (workshop.toJson true).toRecord Wire.titleFormulas Wire.eventSchema workshop.typeName = .ok t' ∧
      t'.equals .state workshop = true ∧ recordBare t' = recordBare workshop ∧
        ∀ includeDangerous, t'.toJson includeDangerous = workshop.toJson includeDangerous :=
  RecordOf.toRecord_toJson Wire.compile_event portable_workshop

namespace Json

open Wire

/-- A record comes back from its document. -/
def ComesBack (F : Formulas) (s : Schema) (t : Record) : Prop :=
  ∃ t', (t.toJson true).toRecord F s t.typeName = .ok t' ∧ t'.equals .state t = true ∧
    recordBare t' = recordBare t ∧ ∀ includeDangerous, t'.toJson includeDangerous = t.toJson includeDangerous

/-- Portable records come back, given what is asked of formulas and of the fields that are left off the wire. -/
def RoundTrips (asked : Formulas → Schema → Prop) (derived : Formulas → Record → Prop) : Prop :=
  ∀ (serial : Nat) (d : Declarations) (s : Schema) (F : Formulas) (t : Record),
    Schema.compile serial d = .ok s → asked F s →
    recordPortable s (derived F) t 0 → ComesBack F s t

/-- Events of another schema have a place. -/
def placeLayout : Layout :=
  eventDeclarations.layout 1 [] ⟨"Event", none, [⟨"place", .text, 1, false, false, none, []⟩]⟩ []

/-- An event with a part that is an event of another schema. -/
def mixed : Record :=
  event (.value (.text "day")) (.value (.list [some (.record ⟨placeLayout, [.value (.text "hall")]⟩)])) .absent

/-- The kinds of the fields accept what they hold. -/
def Accepts (t : Record) : Prop :=
  ∀ e ∈ t.fields.zip t.layout.fields, ∀ v ∈ e.1.value?, e.2.kind.accepts v = true

/-- A record that comes back looks the same. -/
theorem not_comesBack {F : Formulas} {s : Schema} {t : Record} (look : Record → Bool)
    (differs : ((t.toJson true).toRecord F s t.typeName).toOption.all
      (fun t' => look (recordBare t') != look (recordBare t)) = true) : ¬ ComesBack F s t := by
  rintro ⟨t', read, -, same, -⟩
  rw [read] at differs
  simp [Except.toOption, same] at differs

/-- It is not enough that formulas read their inputs, since the body of an unknown record is spelled anew; nor that
derived fields are equal in state, since null is derived where they were absent; nor that positions accept what they
hold, since records inside are read with the types of the schema. -/
theorem not_toRecord_toJson : ¬ RoundTrips Formulas.ReadsInputs (RecordOf.HasDerived Eq) ∧
    ¬ RoundTrips Formulas.Local (RecordOf.HasDerived fun h g => h.equals .state g = true) ∧
    (Accepts mixed ∧ mixed.HasDerived Eq titleFormulas ∧ ¬ ComesBack titleFormulas eventSchema mixed) := by
  refine ⟨fun claim => ?_, fun claim => ?_, ?_, hasDerived_event rfl rfl, ?_⟩
  · have portable : recordPortable eventSchema (RecordOf.HasDerived Eq bodyFormulas) pause 0 :=
      ⟨by decide, rfl, rfl, hasDerived_event rfl rfl, trivial, ⟨by decide, rfl, trivial⟩, trivial⟩
    exact not_comesBack (·.field "shown" |>.same (.value (.text "text"))) (by decide +kernel)
      (claim _ _ _ _ _ compile_event readsInputs_bodyFormulas portable)
  · have portable : recordPortable eventSchema
        (RecordOf.HasDerived (fun h g => h.equals .state g = true) partsFormulas) appointment 0 :=
      ⟨by decide, rfl, rfl, hasDerived_event rfl rfl, trivial, trivial⟩
    exact not_comesBack (·.field "shown" |>.isNull) (by decide +kernel)
      (claim _ _ _ _ _ compile_event local_partsFormulas portable)
  · unfold Accepts
    decide +kernel
  · exact not_comesBack (mixed.equals .state ·) (by decide +kernel)

end Json

end EntityGraph
