import EntityGraph.Proofs.Wire.Receive
import EntityGraph.Record.Equality

/-! Equality in state among records of one schema: it compares position by position, and is reflexive and transitive.
So is equality in identity. -/

namespace EntityGraph

open List

variable {mode : Comparison} {r : Record} {f : Field Value} {fields : List (Field Value)} {g : Field Value}
  {layout : Layout} {infos : List FieldInfo}

namespace Schema

/-- All records in a value are of the schema's own types, with a field for each position. -/
def own (s : Schema) : Requirement Unit Bool where
  whole r _ fields := s.type? r.layout.name == some r.layout && r.fields.length == r.layout.fields.length && fields
  __ := Requirement.plain true and

/-- All records in a value are of the schema's own types. -/
def owns (s : Schema) (v : Value) : Bool :=
  s.own.value v ()

/-- The record and all records in it are of the schema's own types. -/
def ownsRecord (s : Schema) (r : Record) : Bool :=
  s.own.record r ()

/-- All records in a field are of the schema's own types. -/
def ownsField (s : Schema) : Field Value → Bool
  | .value v => s.owns v
  | _ => true

variable {s : Schema}

theorem own_conjoins : s.own.Conjoins (· = true) :=
  ⟨rfl, fun a b => Bool.and_eq_true a b ▸ Iff.rfl⟩

@[simp] theorem ownsField_value {v : Value} : s.ownsField (.value v) = s.owns v :=
  rfl

@[simp] theorem owns_record : s.owns (.record r) = s.ownsRecord r :=
  rfl

/-- A list is own if its elements are. -/
theorem owns_list {items : List (Option Value)} : s.owns (.list items) = true ↔ ∀ v, some v ∈ items → s.owns v = true :=
  own_conjoins.items_iff

/-- A map is own if the values of its entries are. -/
theorem owns_map {entries : List (String × Option Value)} :
    s.owns (.map entries) = true ↔ ∀ k v, (k, some v) ∈ entries → s.owns v = true :=
  own_conjoins.entries_iff

/-- A record is own if it is of the schema and its fields are own. -/
theorem ownsRecord_iff : s.ownsRecord r = true ↔ s.type? r.layout.name = some r.layout ∧
    r.fields.length = r.layout.fields.length ∧ ∀ f ∈ r.fields, s.ownsField f = true := by
  rcases r with ⟨layout, fields⟩
  have inside : s.own.fields layout fields layout.fields () = true ↔ ∀ f ∈ fields, s.ownsField f = true := by
    rw [own_conjoins.fields_iff]
    constructor
    · intro all f member
      obtain ⟨i, here⟩ := mem_iff_getElem?.mp member
      cases f with
      | value v => exact all i v here
      | null | absent => rfl
    · exact fun all i v here => all (.value v) (mem_of_getElem? here)
  rw [← inside, ← and_assoc]
  simp only [ownsRecord, Requirement.record, own, Bool.and_eq_true, beq_iff_eq]

theorem ownsField_field (own : s.ownsRecord r = true) (name : String) : s.ownsField (r.field name) = true := by
  obtain ⟨-, -, fields⟩ := ownsRecord_iff.mp own
  unfold RecordOf.field
  split
  · rfl
  · rename_i i _
    cases there : r.fields[i]? with
    | none => rfl
    | some f => exact fields f (mem_of_getElem? there)

theorem ownsRecord_set (own : s.ownsRecord r = true) (new : s.ownsField f = true) (i : Nat) :
    s.ownsRecord ⟨r.layout, r.fields.set i f⟩ = true := by
  obtain ⟨type, length, fields⟩ := ownsRecord_iff.mp own
  refine ownsRecord_iff.mpr ⟨type, by simpa using length, fun g member => ?_⟩
  rcases mem_or_eq_of_mem_set member with old | rfl
  · exact fields g old
  · exact new

end Schema

/-- Pure formulas make nothing foreign of fields that the schema owns. -/
def Formulas.KeepOwn (F : Formulas) (s : Schema) : Prop :=
  ∀ name read, (∀ field, s.ownsField (read field) = true) → s.ownsField (F.pure name read) = true

namespace Schema

variable {s : Schema} {F : Formulas}

theorem ownsField_evaluate? (keep : F.KeepOwn s) {read : String → Field Value}
    (own : ∀ field, s.ownsField (read field) = true) {d : Derivation} (derived : d.evaluate? F read = some f) :
    s.ownsField f = true := by
  cases d with
  | firstOf sources =>
    cases derived
    unfold Derivation.firstAvailable
    split
    · -- The value is that of one of the sources.
      rename_i v found
      obtain ⟨source, member, available⟩ := exists_of_findSome?_eq_some found
      obtain ⟨field, -, rfl⟩ := mem_map.mp member
      have source := own field
      unfold Derivation.available? at available
      split at available
      · rename_i w same
        split at available
        · cases available
        · cases available
          rwa [same] at source
      · cases available
    · split <;> rfl
  | computed sources formula =>
    cases derived
    exact keep formula read own
  | contextual formula => cases derived

/-- Pure derivations make nothing foreign of a record that the schema owns. -/
theorem ownsRecord_derive (keep : F.KeepOwn s) (own : s.ownsRecord r = true) : s.ownsRecord (r.derive F) = true := by
  unfold RecordOf.derive
  generalize r.layout.deriveOrder = order
  induction order generalizing r with
  | nil => exact own
  | cons i rest ih =>
    refine ih ?_
    unfold RecordOf.deriveAt
    split
    · rename_i f derived
      obtain ⟨d, -, evaluated⟩ := Option.bind_eq_some_iff.mp derived
      exact ownsRecord_set own (ownsField_evaluate? keep (ownsField_field own) evaluated) i
    · exact own

end Schema

theorem itemsEqual_iff {as bs : List (Option Value)} : itemsEqual mode as bs = true ↔
    List.Forall₂ (Option.Rel fun v w => v.equals mode w = true) as bs := by
  induction as generalizing bs with
  | nil => rcases bs with _ | ⟨_ | _, _⟩ <;> simp [itemsEqual]
  | cons a as ih => rcases bs with _ | ⟨_ | _, bs⟩ <;> cases a <;> simp [itemsEqual, ih]

/-- Maps are compared entry by entry. -/
theorem entriesEqual_iff {as bs : List (String × Option Value)} : entriesEqual mode as bs = true ↔
    List.Forall₂ (Entries.Rel fun v w => v.equals mode w = true) as bs := by
  induction as generalizing bs with
  | nil => rcases bs with _ | ⟨⟨_, _ | _⟩, _⟩ <;> simp [entriesEqual]
  | cons a as ih =>
    rcases bs with _ | ⟨⟨_, _ | _⟩, bs⟩ <;> rcases a with ⟨_, _ | _⟩ <;>
      simp [entriesEqual, ih, Entries.rel_iff, and_assoc]

theorem Field.equals_trans_of {h : Field Value} (each : ∀ v w u, f = .value v → g = .value w → h = .value u →
      v.equals mode w = true → w.equals mode u = true → v.equals mode u = true) (first : f.equals mode g = true)
    (second : g.equals mode h = true) : f.equals mode h = true := by
  cases f <;> cases g <;> cases h <;> simp_all [Field.equals, Field.value?]

/-- Fields meet if their values are related, with absent and null alike. A comparison of what both records declare asks
nothing where one field is absent. -/
def Field.Meets (mode : Comparison) (rel : Value → Value → Prop) (f g : Field Value) : Prop :=
  mode = .declared ∧ (f.isAbsent = true ∨ g.isAbsent = true) ∨ Option.Rel rel f.value? g.value?

theorem Field.meets_iff_equals (whole : mode ≠ .declared) :
    f.Meets mode (fun v w => v.equals mode w = true) g ↔ f.equals mode g = true := by
  cases f <;> cases g <;> simp [Field.Meets, Field.equals, Field.value?, whole]

/-- Fields are compared with those of the same names, but for those that the comparison skips. -/
theorem fieldsEqual_iff_meets :
    fieldsEqual mode layout fields infos r = true ↔ ∀ (i : Nat) (f : Field Value) (info : FieldInfo),
      fields[i]? = some f → infos[i]? = some info →
        mode.skips layout info = true ∨ f.Meets mode (fun v w => v.equals mode w = true) (r.field info.name) := by
  induction fields generalizing infos with
  | nil => cases infos <;> simp [fieldsEqual]
  | cons f rest ih =>
    cases infos with
    | nil => cases f <;> simp [fieldsEqual]
    | cons info infos =>
      have head : fieldsEqual mode layout (f :: rest) (info :: infos) r = true ↔
          (mode.skips layout info = true ∨ f.Meets mode (fun v w => v.equals mode w = true) (r.field info.name)) ∧
            fieldsEqual mode layout rest infos r = true := by
        cases f <;> cases there : r.field info.name <;>
          simp [fieldsEqual, Field.Meets, Field.value?, Field.isAbsent, there]
      rw [head, ih]
      constructor
      · rintro ⟨first, later⟩ i g info' here there
        cases i with
        | zero =>
          cases here
          cases there
          exact first
        | succ i => exact later i g info' here there
      · exact fun each => ⟨each 0 f info rfl rfl, fun i g info' here there => each (i + 1) g info' here there⟩

theorem fieldsEqual_iff (whole : mode ≠ .declared) :
    fieldsEqual mode layout fields infos r = true ↔ ∀ (i : Nat) (f : Field Value) (info : FieldInfo),
      fields[i]? = some f → infos[i]? = some info →
        mode.skips layout info = true ∨ f.equals mode (r.field info.name) = true := by
  simp only [fieldsEqual_iff_meets, Field.meets_iff_equals whole]

/-- All layouts of the schema are accepted. -/
def Schema.Accepted (s : Schema) : Prop :=
  ∀ name l, s.type? name = some l → l.Accepted

section equality

variable {s : Schema} {a b : Record}

section

variable (accepted : s.Accepted)
include accepted

/-- Records of the schema are equal if they have one type and the fields that are not skipped meet. -/
theorem recordEquals_iff_meets (own : s.ownsRecord a = true) (own' : s.ownsRecord b = true) :
    recordEquals mode a b = true ↔
      a.layout = b.layout ∧ ∀ (i : Nat) (f g : Field Value) (info : FieldInfo), a.fields[i]? = some f →
        b.fields[i]? = some g → a.layout.fields[i]? = some info →
          mode.skips a.layout info = true ∨ f.Meets mode (fun v w => v.equals mode w = true) g := by
  obtain ⟨type, length, -⟩ := Schema.ownsRecord_iff.mp own
  obtain ⟨type', length', -⟩ := Schema.ownsRecord_iff.mp own'
  have unfolded : recordEquals mode a b = (a.layout.name == b.layout.name &&
      fieldsEqual mode a.layout a.fields a.layout.fields b) := by
    rcases a with ⟨layout, fields⟩
    rw [recordEquals]
  rw [unfolded, Bool.and_eq_true, beq_iff_eq, fieldsEqual_iff_meets]
  -- One type name belongs to one layout, where each position has its own name.
  have layouts : a.layout.name = b.layout.name ↔ a.layout = b.layout := by
    refine ⟨fun same => ?_, fun same => by rw [same]⟩
    rw [same, type'] at type
    exact (Option.some.inj type).symm
  rw [layouts]
  refine and_congr_right fun same => forall_congr' fun i => forall_congr' fun f => ?_
  constructor
  · intro each g info here there described
    have read := each info here described
    rw [same] at described
    rwa [RecordOf.field_name (accepted _ _ type') described, there, Option.getD_some] at read
  · intro each info here described
    have inside := (List.getElem?_eq_some_iff.mp described).1
    rw [same, ← length'] at inside
    have other := getElem?_eq_getElem inside
    have read := each _ info here other described
    rw [same] at described
    rwa [RecordOf.field_name (accepted _ _ type') described, other, Option.getD_some]

/-- Where absent fields count, records are equal if the fields that are not skipped are. -/
theorem recordEquals_iff (whole : mode ≠ .declared) (own : s.ownsRecord a = true) (own' : s.ownsRecord b = true) :
    recordEquals mode a b = true ↔
      a.layout = b.layout ∧ ∀ (i : Nat) (f g : Field Value) (info : FieldInfo), a.fields[i]? = some f →
        b.fields[i]? = some g → a.layout.fields[i]? = some info →
          mode.skips a.layout info = true ∨ f.equals mode g = true := by
  simp only [recordEquals_iff_meets accepted own own', Field.meets_iff_equals whole]

/-- Records of the schema are equal in state if they have one type and their fields are. -/
theorem recordEquals_state_iff (own : s.ownsRecord a = true) (own' : s.ownsRecord b = true) :
    recordEquals .state a b = true ↔ a.layout = b.layout ∧
      ∀ (i : Nat) (f g : Field Value), a.fields[i]? = some f → b.fields[i]? = some g → f.equals .state g = true := by
  obtain ⟨-, length, -⟩ := Schema.ownsRecord_iff.mp own
  rw [recordEquals_iff accepted (by decide) own own']
  refine and_congr_right fun _ => forall_congr' fun i => forall_congr' fun f => forall_congr' fun g => ?_
  -- Equality in state skips no field, and each field has a description.
  constructor
  · intro each here there
    have inside := (List.getElem?_eq_some_iff.mp here).1
    rw [length] at inside
    exact (each _ here there (getElem?_eq_getElem inside)).resolve_left (by simp [Comparison.skips])
  · exact fun each info here there _ => Or.inr (each here there)

/-- A value of the schema is equal to itself. -/
theorem Value.equals_refl (v : Value) (own : s.owns v = true) : v.equals mode v = true := by
  induction v using Value.induct with
  | scalar v plain => cases v <;> simp_all [Value.equals, Value.isScalar]
  | record r ih =>
    rw [Schema.owns_record] at own
    rw [Value.equals]
    refine (recordEquals_iff_meets accepted own own).mpr ⟨rfl, fun i f g info here there _ => Or.inr (Or.inr ?_)⟩
    rw [here] at there
    cases there
    have member := mem_of_getElem? here
    have owned := (Schema.ownsRecord_iff.mp own).2.2 f member
    cases f with
    | value v => exact .some (ih v member (by simpa using owned))
    | _ => exact .none
  | list items ih =>
    rw [Schema.owns_list] at own
    exact itemsEqual_iff.mpr (items_refl fun v member => ih v member (own v member))
  | map entries ih =>
    rw [Schema.owns_map] at own
    exact entriesEqual_iff.mpr (entries_refl fun k v member => ih k v member (own k v member))

theorem recordEquals_refl (r : Record) (own : s.ownsRecord r = true) : recordEquals mode r r = true := by
  have same : (Value.record r).equals mode (.record r) = true :=
    Value.equals_refl accepted (.record r) (by rwa [Schema.owns_record])
  rwa [Value.equals] at same

/-- Equality is transitive among values of the schema. -/
theorem Value.equals_trans (whole : mode ≠ .declared) (a : Value) {b c : Value} (own : s.owns a = true)
    (own' : s.owns b = true) (own'' : s.owns c = true) (first : a.equals mode b = true)
    (second : b.equals mode c = true) : a.equals mode c = true := by
  induction a using Value.induct generalizing b c with
  | scalar v plain => cases v <;> cases b <;> cases c <;> simp_all [Value.equals, Value.isScalar]
  | record a ih =>
    cases b <;> try cases first
    cases c <;> try cases second
    rename_i b c
    rw [Schema.owns_record] at own own' own''
    rw [Value.equals] at first second ⊢
    obtain ⟨same, each⟩ := (recordEquals_iff accepted whole own own').mp first
    obtain ⟨same', each'⟩ := (recordEquals_iff accepted whole own' own'').mp second
    refine (recordEquals_iff accepted whole own own'').mpr ⟨same.trans same', fun i f h info here there described => ?_⟩
    obtain ⟨-, length, owned⟩ := Schema.ownsRecord_iff.mp own
    obtain ⟨-, length', owned'⟩ := Schema.ownsRecord_iff.mp own'
    obtain ⟨-, -, owned''⟩ := Schema.ownsRecord_iff.mp own''
    -- The record in the middle has a field at the position, too.
    have inside := (List.getElem?_eq_some_iff.mp here).1
    rw [length, same, ← length'] at inside
    have middle := getElem?_eq_getElem inside
    rcases each i f _ info here middle described with skipped | equal
    · exact Or.inl skipped
    · rw [same] at described ⊢
      refine (each' i _ h info middle there described).imp_right fun equal' => ?_
      exact Field.equals_trans_of (fun v w u hf hg hh => ih v (hf ▸ mem_of_getElem? here)
        (by simpa [hf] using owned f (mem_of_getElem? here))
        (by simpa [hg] using owned' _ (mem_of_getElem? middle))
        (by simpa [hh] using owned'' h (mem_of_getElem? there))) equal equal'
  | list as ih =>
    cases b <;> try cases first
    cases c <;> try cases second
    rw [Schema.owns_list] at own own' own''
    rw [Value.equals, itemsEqual_iff] at first second ⊢
    refine forall₂_comp first second fun a b c ha hb hc related related' => ?_
    cases related with
    | none => exact related'
    | some here =>
      cases related' with
      | some there => exact .some (ih _ ha (own _ ha) (own' _ hb) (own'' _ hc) here there)
  | map as ih =>
    cases b <;> try cases first
    cases c <;> try cases second
    rw [Schema.owns_map] at own own' own''
    rw [Value.equals, entriesEqual_iff] at first second ⊢
    refine forall₂_comp first second fun a b c ha hb hc related related' => ?_
    obtain ⟨k, related⟩ := related
    obtain ⟨_, related'⟩ := related'
    cases related with
    | none => exact .mk k related'
    | some here =>
      cases related' with
      | some there => exact .mk k (.some (ih k _ ha (own k _ ha) (own' k _ hb) (own'' k _ hc) here there))

theorem recordEquals_trans (whole : mode ≠ .declared) {c : Record} (own : s.ownsRecord a = true)
    (own' : s.ownsRecord b = true) (own'' : s.ownsRecord c = true) (first : recordEquals mode a b = true)
    (second : recordEquals mode b c = true) : recordEquals mode a c = true := by
  have trans := Value.equals_trans accepted whole (.record a) (b := .record b) (c := .record c)
  simp only [Schema.owns_record, Value.equals] at trans
  exact trans own own' own'' first second

end

end equality

end EntityGraph
