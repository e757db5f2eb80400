import EntityGraph.Draft
import EntityGraph.Proofs.Record.Induction
import EntityGraph.Proofs.Record.Requirement
import EntityGraph.Proofs.Schema.Reachability
import EntityGraph.Redaction.Basic

/-! Nothing dangerous stays in the clear: passing over what the analysis of the schema calls safe makes no difference,
as long as records stand where the schema expects them. -/

namespace EntityGraph

open List

variable {l : Layout}

namespace Redaction

mutual

/-- Changes the leaves of a value that are dangerous, and visits all of it: nothing is known here of what the analysis
of the schema found out. -/
def thoroughValue (leaf : Value → Value) : Value → Bool → Value
  | .record r, all => .record (thoroughRecord leaf r all)
  | .list vs, all => .list (thoroughItems leaf vs all)
  | .map es, all => .map (thoroughEntries leaf es all)
  | .unknown u, _ => .unknown u
  | v, all => if all then leaf v else v

/-- Changes the dangerous leaves of a record, and visits every field. -/
def thoroughRecord (leaf : Value → Value) : RecordOf Value → Bool → RecordOf Value
  | ⟨layout, values⟩, all => ⟨layout, thoroughFields leaf values layout.fields all⟩

/-- Changes the dangerous leaves of fields. What lies under a dangerous field is dangerous. -/
def thoroughFields (leaf : Value → Value) : List (Field Value) → List FieldInfo → Bool → List (Field Value)
  | .value v :: rest, info :: infos, all =>
    .value (thoroughValue leaf v (all || info.dangerous)) :: thoroughFields leaf rest infos all
  | .null :: rest, _ :: infos, all => .null :: thoroughFields leaf rest infos all
  | .absent :: rest, _ :: infos, all => .absent :: thoroughFields leaf rest infos all
  | values, _, _ => values

/-- Changes the dangerous leaves of the elements of a list. -/
def thoroughItems (leaf : Value → Value) : List (Option Value) → Bool → List (Option Value)
  | [], _ => []
  | some v :: rest, all => some (thoroughValue leaf v all) :: thoroughItems leaf rest all
  | none :: rest, all => none :: thoroughItems leaf rest all

/-- Changes the dangerous leaves of the entries of a map. -/
def thoroughEntries (leaf : Value → Value) : List (String × Option Value) → Bool → List (String × Option Value)
  | [], _ => []
  | (k, some v) :: rest, all => (k, some (thoroughValue leaf v all)) :: thoroughEntries leaf rest all
  | (k, none) :: rest, all => (k, none) :: thoroughEntries leaf rest all

end

end Redaction

/-- Hides every leaf under a dangerous field, and looks for them everywhere. -/
def RecordOf.redactThoroughly (r : Record) (m : Mask) : Record :=
  Redaction.thoroughRecord m.redact r false

/-- The record types that a value of this kind can be: the one that is named, or the members of the open type. -/
def Schema.typesOf (s : Schema) : Kind → List String
  | .record name => [name]
  | .openType name => ((s.open? name).map OpenType.members).getD []
  | .list k | .map k => s.typesOf k
  | _ => []

/-- Every record in a value is one of its schema and of one of the types that are given at its place. Fields give the
types that they are declared for. Of dangerous fields nothing is asked: all that they hold is hidden. -/
def Schema.placed (s : Schema) : Requirement (List String) Prop where
  atRecord r types inside := r.layout.name ∈ types ∧ inside [r.layout.name]
  whole r _ fields := s.type? r.layout.name = some r.layout ∧ fields
  atField
    | _, some info, _, value => info.dangerous = false → value (s.typesOf info.kind)
    | _, none, _, _ => True
  __ := Requirement.plain True And

/-- Every record in the value is one of the schema and of one of the types given. -/
def Value.Placed (s : Schema) (v : Value) (types : List String) : Prop :=
  s.placed.value v types

/-- The record is one of the schema, and what it holds is of the types that its fields are declared for. -/
def recordPlaced (s : Schema) (r : Record) : Prop :=
  s.placed.record r [r.layout.name]

namespace Schema

variable {serial : Nat} {d : Declarations} {s : Schema}

theorem typesOf_eq (compiled : compile serial d = .ok s) (k : Kind) : s.typesOf k = References.ofKind d k := by
  induction k with
  -- Compiling keeps the open types as they were declared.
  | openType name => rw [typesOf, References.ofKind, open?, (opens_of_compile compiled).1, Declarations.open?]
  | list k ih => exact ih
  | map k ih => exact ih
  | _ => rfl

/-- A type of an accepted schema that cannot hold dangerous data has neither a dangerous field nor one that leads to
dangerous data. -/
theorem safe_fields (compiled : compile serial d = .ok s) {name : String} (found : s.type? name = some l)
    (safe : l.dangerousCapable = false) {info : FieldInfo} (member : info ∈ l.fields) :
    info.dangerous = false ∧ info.reachesDangerous = false := by
  obtain ⟨t, rules, order, declared, -, rfl⟩ := declared_of_type? compiled found
  have named : t.name = name := by simpa using find?_some declared
  simp only [Declarations.layout, mem_map] at member safe
  obtain ⟨f, listed, rfl⟩ := member
  rw [named, Bool.eq_false_iff, Ne, References.dangerousCapable_iff compiled (by rw [declared]; rfl),
    References.finds_iff, declared] at safe
  -- Whatever the field has or leads to, its type has or leads to.
  have own : f.dangerous = false := by
    by_contra dangerous
    exact safe (Or.inl (any_eq_true.mpr ⟨f, listed, by simpa using dangerous⟩))
  refine ⟨own, ?_⟩
  rw [Bool.eq_false_iff, Ne, References.reachesDangerous_iff compiled declared listed]
  rintro (dangerous | ⟨first, held, leads⟩)
  · rw [own] at dangerous
    cases dangerous
  · exact safe (Or.inr ⟨first, References.ofType_of_field declared listed held, leads⟩)

/-- A type that a field without dangerous data can hold cannot hold dangerous data itself. -/
theorem safe_types (compiled : compile serial d = .ok s) {name : String} (found : s.type? name = some l)
    {info : FieldInfo} (member : info ∈ l.fields) (safe : info.reachesDangerous = false) {other : String} {l' : Layout}
    (listed : other ∈ s.typesOf info.kind) (there : s.type? other = some l') : l'.dangerousCapable = false := by
  obtain ⟨t, rules, order, -, -, rfl⟩ := declared_of_type? compiled found
  obtain ⟨t', rules', order', declared', -, rfl⟩ := declared_of_type? compiled there
  have named : t'.name = other := by simpa using find?_some declared'
  simp only [Declarations.layout, mem_map] at member ⊢
  obtain ⟨f, -, rfl⟩ := member
  rw [typesOf_eq compiled] at listed
  -- The flag of the field asks this of every type that it can hold.
  simp only [References.reachesDangerous, Bool.or_eq_false_iff, any_eq_false] at safe
  rw [named]
  simpa using safe.2 other listed

end Schema

namespace Redaction

variable {serial : Nat} {d : Declarations} {s : Schema} {leaf : Value → Value}

/-- No record of the types given can hold dangerous data. -/
def Safe (s : Schema) (types : List String) : Prop :=
  ∀ name ∈ types, ∀ l, s.type? name = some l → l.dangerousCapable = false

/-- There is nothing to hide in the last fields of a safe layout if there is nothing to hide in what holds safe records
only. -/
theorem thoroughFields_safe (compiled : Schema.compile serial d = .ok s) {values : List (Field Value)}
    (each : ∀ v, .value v ∈ values → ∀ types, Safe s types → v.Placed s types → thoroughValue leaf v false = v)
    {infos : List FieldInfo} (found : s.type? l.name = some l) (safe : l.dangerousCapable = false)
    (among : infos ⊆ l.fields) (placed : s.placed.fields l values infos [l.name]) :
    thoroughFields leaf values infos false = values := by
  induction values generalizing infos with
  | nil => rfl
  | cons f rest ih =>
    cases infos with
    | nil => cases f <;> rfl
    | cons info infos =>
      have others := ih (fun v member => each v (.tail _ member)) (subset_of_cons_subset among)
      cases f with
      | value v =>
        have member := among mem_cons_self
        -- The field is safe because its record is, and so are the types that it can hold.
        obtain ⟨harmless, unreached⟩ := Schema.safe_fields compiled found safe member
        have inside : Safe s (s.typesOf info.kind) := fun other listed l' there =>
          Schema.safe_types compiled found member unreached listed there
        rw [thoroughFields, harmless, Bool.false_or, each v mem_cons_self _ inside (placed.1 harmless),
          others placed.2]
      | null | absent => rw [thoroughFields, others placed]

/-- There is nothing to hide in a value that holds safe records only. -/
theorem thoroughValue_safe (compiled : Schema.compile serial d = .ok s) (v : Value) (types : List String)
    (safe : Safe s types) (placed : v.Placed s types) : thoroughValue leaf v false = v := by
  induction v using Value.induct generalizing types with
  | scalar v plain => cases v <;> first | rfl | cases plain
  | record r ih =>
    rcases r with ⟨layout, values⟩
    obtain ⟨expected, own, placed⟩ := placed
    rw [thoroughValue, thoroughRecord,
      thoroughFields_safe compiled ih own (safe _ expected _ own) (List.Subset.refl _) placed]
  | list items ih =>
    rw [thoroughValue]
    congr 1
    induction items with
    | nil => rfl
    | cons item rest later =>
      have others := later fun v member => ih v (.tail _ member)
      cases item with
      | none => rw [thoroughItems, others placed]
      | some v => rw [thoroughItems, ih v mem_cons_self types safe placed.1, others placed.2]
  | map entries ih =>
    rw [thoroughValue]
    congr 1
    induction entries with
    | nil => rfl
    | cons e rest later =>
      have others := later fun k v member => ih k v (.tail _ member)
      rcases e with ⟨k, _ | v⟩
      · rw [thoroughEntries, others placed]
      · rw [thoroughEntries, ih k v mem_cons_self types safe placed.1, others placed.2]

/-- Fields of a record of the schema that are the last ones of its layout, placed as they should be. -/
def LastPlaced (s : Schema) (l : Layout) (values : List (Field Value)) (infos : List FieldInfo) : Prop :=
  s.type? l.name = some l ∧ infos ⊆ l.fields ∧ s.placed.fields l values infos [l.name]

/-- Visiting all of the value changes the same leaves. Where all leaves are to be changed, it does not matter which
records there are. -/
def EqThorough (s : Schema) (leaf : Value → Value) (v : Value) : Prop :=
  ∀ (types : List String) (all : Bool), (all = false → v.Placed s types) →
    value leaf v all = thoroughValue leaf v all

variable (compiled : Schema.compile serial d = .ok s)
include compiled

theorem fields_eq_thorough {values : List (Field Value)} (each : ∀ v, .value v ∈ values → EqThorough s leaf v)
    {infos : List FieldInfo} {all : Bool} (placed : all = false → LastPlaced s l values infos) :
    fields leaf values infos all = thoroughFields leaf values infos all := by
  induction values generalizing infos with
  | nil => rfl
  | cons f rest ih =>
    cases infos with
    | nil => cases f <;> rfl
    | cons info infos =>
      have others := @ih (fun v member => each v (.tail _ member)) infos
      cases f with
      | value v =>
        rw [fields, thoroughFields, others fun clear =>
          ⟨(placed clear).1, subset_of_cons_subset (placed clear).2.1, (placed clear).2.2.2⟩]
        split
        · -- Under a dangerous field nothing is known of what it holds, but there everything is changed.
          have inside : (all || info.dangerous) = false → v.Placed s (s.typesOf info.kind) := by
            intro clear
            obtain ⟨clear, harmless⟩ := Bool.or_eq_false_iff.mp clear
            exact (placed clear).2.2.1 harmless
          rw [each v mem_cons_self _ _ inside]
        · -- A field is passed over only if it leads to safe types.
          rename_i skipped
          obtain ⟨⟨rfl, harmless⟩, unreached⟩ :
            (all = false ∧ info.dangerous = false) ∧ info.reachesDangerous = false := by simpa using skipped
          obtain ⟨found, among, inside, -⟩ := placed rfl
          have safe : Safe s (s.typesOf info.kind) := fun other listed l' there =>
            Schema.safe_types compiled found (among mem_cons_self) unreached listed there
          rw [harmless, Bool.or_false, thoroughValue_safe compiled v _ safe (inside harmless)]
      | null | absent =>
        rw [fields, thoroughFields, others fun clear =>
          ⟨(placed clear).1, subset_of_cons_subset (placed clear).2.1, (placed clear).2.2⟩]

theorem record_eq_thorough_of {r : Record} (each : ∀ v, .value v ∈ r.fields → EqThorough s leaf v) {all : Bool}
    (placed : all = false → recordPlaced s r) : record leaf r all = thoroughRecord leaf r all := by
  rcases r with ⟨layout, values⟩
  have last : all = false → LastPlaced s layout values layout.fields := fun clear =>
    ⟨(placed clear).1, List.Subset.refl _, (placed clear).2⟩
  rw [record, thoroughRecord]
  split
  · rw [fields_eq_thorough compiled each last]
  · -- A record is left alone only if its type is safe, and then there is nothing to hide in it.
    rename_i skipped
    obtain ⟨rfl, safe⟩ : all = false ∧ layout.dangerousCapable = false := by simpa using skipped
    obtain ⟨found, among, inside⟩ := last rfl
    rw [thoroughFields_safe compiled (fun v _ => thoroughValue_safe compiled v) found safe among inside]

theorem value_eq_thorough (v : Value) : EqThorough s leaf v := by
  induction v using Value.induct with
  | scalar v plain => cases v <;> first | exact fun _ _ _ => rfl | cases plain
  | record r ih =>
    intro types all placed
    -- That the record is of a type expected here matters only where something is passed over.
    rw [value, thoroughValue, record_eq_thorough_of compiled ih fun clear => (placed clear).2]
  | list vs ih =>
    intro types all placed
    rw [value, thoroughValue]
    congr 1
    induction vs with
    | nil => rfl
    | cons item rest later =>
      have others := later fun v member => ih v (.tail _ member)
      cases item with
      | none => rw [items, thoroughItems, others placed]
      | some v =>
        rw [items, thoroughItems, ih v mem_cons_self types all fun clear => (placed clear).1,
          others fun clear => (placed clear).2]
  | map es ih =>
    intro types all placed
    rw [value, thoroughValue]
    congr 1
    induction es with
    | nil => rfl
    | cons e rest later =>
      have others := later fun k v member => ih k v (.tail _ member)
      rcases e with ⟨k, _ | v⟩
      · rw [entries, thoroughEntries, others placed]
      · rw [entries, thoroughEntries, ih k v mem_cons_self types all fun clear => (placed clear).1,
          others fun clear => (placed clear).2]

theorem record_eq_thorough (r : Record) (all : Bool) (placed : all = false → recordPlaced s r) :
    record leaf r all = thoroughRecord leaf r all :=
  record_eq_thorough_of compiled (fun v _ => value_eq_thorough compiled v) placed

end Redaction

/-- Hiding is complete: what the analysis of the schema lets it pass over holds nothing dangerous, as long as each
record is one of the schema and of a type that its field is declared for. -/
theorem RecordOf.redact_eq_redactThoroughly {serial : Nat} {d : Declarations} {s : Schema}
    (compiled : Schema.compile serial d = .ok s) {r : Record} (placed : recordPlaced s r) (m : Mask) :
    r.redact m = r.redactThoroughly m :=
  Redaction.record_eq_thorough compiled r false fun _ => placed

namespace Redaction

/-- A folder whose owner stands in a folder inside it. -/
def nestedFolder : Record :=
  ⟨folderLayout, [.null,
    .value (.list [some (.record ⟨folderLayout, [.value (.record ada), .absent, .absent]⟩), none,
      some (.record reminder)]),
    .value (.record reminder)]⟩

theorem placed_nestedFolder : recordPlaced folderSchema nestedFolder := by
  have person : folderSchema.type? "Person" = some personLayout := by decide +kernel
  have note : folderSchema.type? "Note" = some noteLayout := by decide +kernel
  have folder : folderSchema.type? "Folder" = some folderLayout := by decide +kernel
  -- From the inside out: the owner, the label and the folder that is a part.
  have owner : recordPlaced folderSchema ada := ⟨person, fun _ => trivial, fun _ => trivial, trivial⟩
  have label : recordPlaced folderSchema reminder := ⟨note, fun _ => trivial, trivial⟩
  have part : recordPlaced folderSchema ⟨folderLayout, [.value (.record ada), .absent, .absent]⟩ :=
    ⟨folder, fun _ => ⟨by decide +kernel, owner⟩, trivial⟩
  exact ⟨folder, fun _ => ⟨⟨by decide +kernel, part⟩, ⟨by decide +kernel, label⟩, trivial⟩,
    fun _ => ⟨by decide +kernel, label⟩, trivial⟩

end Redaction

/-- The email in the inner folder is hidden. -/
theorem RecordOf.redact_eq_redactThoroughly_folder :
    recordPlaced Redaction.folderSchema Redaction.nestedFolder ∧
      Redaction.nestedFolder.redact (Mask.ofSecret [107]) =
        Redaction.nestedFolder.redactThoroughly (Mask.ofSecret [107]) :=
  ⟨Redaction.placed_nestedFolder,
    redact_eq_redactThoroughly Redaction.compile_folder Redaction.placed_nestedFolder (Mask.ofSecret [107])⟩

namespace Redaction

/-- The email of a folder's label. -/
def labelEmail (folder : Record) : Option String :=
  ((folder.field "label").value?.bind Value.record?).bind fun label => (label.field "email").value?.bind Value.text?

theorem conceal_ne (m : Mask) (plain : String) (short : plain.length < 9) : m.conceal plain ≠ plain := by
  intro same
  -- What hides a text starts with a mark, so it is longer than the mark.
  have marked : Mask.mark.length = 9 := by decide
  have longer := congrArg String.length same
  rw [Mask.conceal, String.length_append] at longer
  omega

/-- A draft takes any record for a label, also one that is no member of the open type. The email in it stays in the
clear, whatever the mask. -/
theorem not_redact_eq_redactThoroughly : ∃ draft, Schema.compile 0 folderDeclarations = .ok folderSchema ∧
    (Draft.new folderLayout).set? "label" (.value (.record ada)) = .ok draft ∧
    ∀ m, labelEmail (draft.raw.redact m) = some "a@b" ∧ draft.raw.redact m ≠ draft.raw.redactThoroughly m := by
  refine ⟨⟨⟨folderLayout, [.absent, .absent, .value (.record ada)]⟩, rfl⟩, compile_folder, rfl,
    fun m => ⟨rfl, fun same => ?_⟩⟩
  -- A thorough visit would have hidden the email.
  have hidden : some "a@b" = some (m.conceal "a@b") := congrArg labelEmail same
  exact conceal_ne m "a@b" (by decide) (Option.some.inj hidden).symm

end Redaction

end EntityGraph
