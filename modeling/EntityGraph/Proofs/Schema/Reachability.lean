import EntityGraph.Proofs.Schema.References

/-! Reachability of types is exact, and what records hold is among what their types can hold. -/

namespace EntityGraph

open List

open Relation

variable {inner : Record}

/-- A value of the kind can be a record of the type, or a collection of such records. -/
inductive Kind.Carries (s : Schema) : Kind → String → Prop where
  | record (name : String) : Carries s (.record name) name
  | member {name type : String} {o : OpenType} (found : s.open? name = some o) (listed : type ∈ o.members) :
    Carries s (.openType name) type
  | list {k : Kind} {type : String} (element : Carries s k type) : Carries s (.list k) type
  | map {k : Kind} {type : String} (element : Carries s k type) : Carries s (.map k) type

/-- Records of one type can hold records of the other right in a field. -/
def Schema.Leads (s : Schema) (a b : String) : Prop :=
  ∃ l, s.type? a = some l ∧ ∃ f ∈ l.fields, f.kind.Carries s b

/-- A field of the type passes the test. -/
def Schema.Declares (s : Schema) (test : FieldDecl → Bool) (name : String) : Prop :=
  ∃ l, s.type? name = some l ∧ ∃ f ∈ l.fields, test f.toFieldDecl = true

/-- A type with a field that passes the test can be reached from the given one, which counts itself. -/
def Schema.Reaches (s : Schema) (test : FieldDecl → Bool) (name : String) : Prop :=
  ∃ other, ReflTransGen s.Leads name other ∧ s.Declares test other

/-- A record is in the value, at any depth. -/
inductive Value.Holds : Value → Record → Prop where
  | here (r : Record) : Holds (.record r) r
  | field {r inner : Record} {v : Value} (member : .value v ∈ r.fields) (deeper : Holds v inner) :
    Holds (.record r) inner
  | item {items : List (Option Value)} {v : Value} {inner : Record} (member : some v ∈ items)
    (deeper : Holds v inner) : Holds (.list items) inner
  | entry {entries : List (String × Option Value)} {key : String} {v : Value} {inner : Record}
    (member : (key, some v) ∈ entries) (deeper : Holds v inner) : Holds (.map entries) inner

/-- Every value in a field of the record has the shape of the field's kind. Records in it are the schema's own, and
members of the open type where the kind is one. -/
def Schema.Fits (s : Schema) (r : Record) : Prop :=
  r.fields.length = r.layout.fields.length ∧ ∀ (i : Nat) (info : FieldInfo) (v : Value),
    r.layout.fields[i]? = some info → r.fields[i]? = some (.value v) → info.kind.conforms s s.declares v = true

section

variable {serial : Nat} {d : Declarations} {s : Schema} (compiled : Schema.compile serial d = .ok s) {k : Kind}
include compiled

theorem Kind.carries_iff {type : String} : k.Carries s type ↔ type ∈ References.ofKind d k := by
  have opens : ∀ name, s.open? name = d.open? name := fun name => by
    rw [Schema.open?, (Schema.opens_of_compile compiled).1, Declarations.open?]
  constructor
  · intro carries
    induction carries with
    | record => simp [References.ofKind]
    | member found listed =>
      rw [opens] at found
      simpa [References.ofKind, found] using listed
    | list _ ih => exact ih
    | map _ ih => exact ih
  · intro listed
    induction k with
    | record name =>
      obtain rfl : type = name := by simpa [References.ofKind] using listed
      exact .record type
    | openType name =>
      cases found : d.open? name with
      | none => simp [References.ofKind, found] at listed
      | some o => exact .member ((opens name).trans found) (by simpa [References.ofKind, found] using listed)
    | list k ih => exact .list (ih listed)
    | map k ih => exact .map (ih listed)
    | _ => cases listed

/-- The fields of a type in the schema are the declared ones. -/
theorem Schema.exists_field_iff (name : String) (holds : FieldDecl → Prop) :
    (∃ l, s.type? name = some l ∧ ∃ f ∈ l.fields, holds f.toFieldDecl) ↔
      ∃ t, d.type? name = some t ∧ ∃ f ∈ t.fields, holds f := by
  constructor
  · rintro ⟨l, found, f, member, held⟩
    obtain ⟨t, rules, order, declared, -, rfl⟩ := declared_of_type? compiled found
    obtain ⟨g, listed, rfl⟩ := mem_map.mp member
    exact ⟨t, declared, g, listed, held⟩
  · rintro ⟨t, declared, f, listed, held⟩
    obtain ⟨l, found⟩ := type?_of_declared compiled declared
    obtain ⟨t', rules, order, declared', -, rfl⟩ := declared_of_type? compiled found
    rw [declared] at declared'
    cases declared'
    exact ⟨_, found, _, mem_map.mpr ⟨f, listed, rfl⟩, held⟩

theorem Schema.leads_eq : s.Leads = References.Holds d := by
  funext a b
  refine propext ((exists_field_iff compiled a fun f => f.kind.Carries s b).trans ?_)
  simp only [Kind.carries_iff compiled, References.Holds, References.ofType]
  cases d.type? a <;> simp [mem_flatMap]

theorem Schema.reaches_iff {test : FieldDecl → Bool} {name : String} :
    s.Reaches test name ↔ References.Finds d (fun t => t.fields.any test) name := by
  rw [Reaches, leads_eq compiled]
  refine exists_congr fun other => ?_
  rw [Declares, exists_field_iff compiled other fun f => test f = true]
  simp only [any_eq_true, exists_and_left]

theorem Schema.declares_of_identifiable {r : Record} (own : s.declares r = true)
    (identifiable : r.layout.identifiable = true) : s.Declares FieldDecl.identifying r.typeName := by
  have found : s.type? r.typeName = some r.layout := by simpa [declares] using own
  obtain ⟨t, rules, order, declared, -, same⟩ := declared_of_type? compiled found
  rw [same] at identifiable
  exact (exists_field_iff compiled _ fun f => f.identifying = true).mpr
    ⟨t, declared, any_eq_true.mp identifiable⟩

/-- What a value of a kind holds is reachable from a type that the kind carries. -/
theorem Kind.reaches_of_holds {v : Value} (held : v.Holds inner) (fits : ∀ r, v.Holds r → s.Fits r)
    (conforms : k.conforms s s.declares v = true) :
    s.declares inner = true ∧ ∃ first, k.Carries s first ∧ ReflTransGen s.Leads first inner.typeName := by
  induction held generalizing k with
  | here r =>
    obtain ⟨listed, own⟩ := reference_of_conforms compiled conforms
    exact ⟨own, r.typeName, (carries_iff compiled).mpr listed, .refl⟩
  | @field r inner v member deeper ih =>
    obtain ⟨listed, own⟩ := reference_of_conforms compiled conforms
    obtain ⟨sized, shapes⟩ := fits r (.here r)
    -- The value stands in a field, whose kind it has.
    obtain ⟨i, there⟩ := mem_iff_getElem?.mp member
    have inside := (List.getElem?_eq_some_iff.mp there).1
    rw [sized] at inside
    have described := getElem?_eq_getElem inside
    obtain ⟨declared, first, carries, path⟩ :=
      ih (fun r' held => fits r' (.field member held)) (shapes i _ v described there)
    have type : s.type? r.typeName = some r.layout := by simpa [Schema.declares] using own
    exact ⟨declared, r.typeName, (carries_iff compiled).mpr listed,
      .head ⟨_, type, _, mem_of_getElem? described, carries⟩ path⟩
  | item member deeper ih =>
    cases k with
    | list k =>
      obtain ⟨own, first, carries, path⟩ := ih (fun r held => fits r (.item member held))
        (all_eq_true.mp conforms _ member)
      exact ⟨own, first, .list carries, path⟩
    | _ => cases conforms
  | entry member deeper ih =>
    cases k with
    | map k =>
      obtain ⟨own, first, carries, path⟩ := ih (fun r held => fits r (.entry member held))
        (all_eq_true.mp conforms _ member)
      exact ⟨own, first, .map carries, path⟩
    | _ => cases conforms

end

/-- The flags of an accepted schema are exact, and records keep to them. A type can hold dangerous data exactly if one
with a dangerous field can be reached from it, itself included, and identifiable records exactly if an identifiable type
can be reached in one step or more. The flags of a field say the same of what it can hold. So a record of a type
without dangerous data declares no dangerous field, at any depth, and a field that cannot link holds no identifiable
record, at any depth. -/
theorem Schema.flags_exact {serial : Nat} {d : Declarations} {s : Schema} (compiled : compile serial d = .ok s)
    {name : String} {l : Layout} (found : s.type? name = some l) :
    (l.dangerousCapable = true ↔ s.Reaches FieldDecl.dangerous name) ∧
    (l.containsIdentifiable = true ↔ ∃ other, TransGen s.Leads name other ∧ s.Declares FieldDecl.identifying other) ∧
    (∀ f ∈ l.fields,
      (f.reachesDangerous = true ↔
        f.dangerous = true ∨ ∃ first, f.kind.Carries s first ∧ s.Reaches FieldDecl.dangerous first) ∧
      (f.mayLink = true ↔ ∃ first, f.kind.Carries s first ∧ s.Reaches FieldDecl.identifying first)) ∧
    ∀ r : Record, r.layout = l → (∀ inner, (Value.record r).Holds inner → s.Fits inner) →
      (l.dangerousCapable = false → ∀ inner, (Value.record r).Holds inner →
        ∀ e ∈ inner.declared, e.1.dangerous = false) ∧
      ∀ (i : Nat) (f : FieldInfo) (v : Value), l.fields[i]? = some f → f.mayLink = false →
        r.fields[i]? = some (.value v) → ∀ inner, v.Holds inner → inner.layout.identifiable = false := by
  obtain ⟨t, rules, order, declared, -, layout⟩ := declared_of_type? compiled found
  obtain rfl : t.name = name := by simpa using find?_some declared
  have isSome : (d.type? t.name).isSome = true := by rw [declared]; rfl
  have capable : l.dangerousCapable = true ↔ s.Reaches FieldDecl.dangerous t.name := by
    rw [reaches_iff compiled, layout]
    exact References.dangerousCapable_iff compiled isSome
  have fields : ∀ f ∈ l.fields, (f.reachesDangerous = true ↔
        f.dangerous = true ∨ ∃ first, f.kind.Carries s first ∧ s.Reaches FieldDecl.dangerous first) ∧
      (f.mayLink = true ↔ ∃ first, f.kind.Carries s first ∧ s.Reaches FieldDecl.identifying first) := by
    intro f member
    rw [layout] at member
    obtain ⟨g, listed, rfl⟩ := mem_map.mp member
    simp only [Kind.carries_iff compiled, reaches_iff compiled]
    exact ⟨References.reachesDangerous_iff compiled declared listed, References.mayLink_iff compiled declared listed⟩
  refine ⟨capable, ?_, fields, fun r same fits => ⟨fun safe inner held e member => ?_, ?_⟩⟩
  · -- One step or more is a first step and a path from there.
    have paths : (∃ other, TransGen s.Leads t.name other ∧ s.Declares FieldDecl.identifying other) ↔
        ∃ first ∈ References.ofType d t.name, s.Reaches FieldDecl.identifying first := by
      simp only [TransGen.head'_iff, Reaches, leads_eq compiled, References.Holds]
      constructor
      · rintro ⟨other, ⟨first, held, path⟩, has⟩
        exact ⟨first, held, other, path, has⟩
      · rintro ⟨first, held, other, path, has⟩
        exact ⟨other, ⟨first, held, path⟩, has⟩
    simp only [paths, reaches_iff compiled, layout]
    exact References.containsIdentifiable_iff compiled isSome
  · -- The record inside is of a type that can be reached, so none of its fields is dangerous.
    by_contra dangerous
    have shape : (Kind.record t.name).conforms s s.declares (.record r) = true := by
      have typed : r.typeName = t.name := by rw [RecordOf.typeName, same, layout]; rfl
      simp [Kind.conforms, declares, typed, found, same]
    obtain ⟨own, first, carries, path⟩ := Kind.reaches_of_holds compiled held fits shape
    cases carries
    have there : s.type? inner.typeName = some inner.layout := by simpa [declares] using own
    rw [capable.mpr ⟨_, path, _, there, e.1, (of_mem_zip (mem_of_mem_filter member)).1,
      by simpa using dangerous⟩] at safe
    cases safe
  · -- What the field holds can be reached from its kind, so it would be able to link.
    intro i f v described unlinked here inner held
    by_contra identifiable
    subst same
    have shape := (fits r (.here r)).2 i f v described here
    have member := mem_of_getElem? here
    obtain ⟨own, first, carries, path⟩ :=
      Kind.reaches_of_holds compiled held (fun r' held => fits r' (.field member held)) shape
    rw [(fields f (mem_of_getElem? described)).2.mpr ⟨first, carries, _, path,
      declares_of_identifiable compiled own (by simpa using identifiable)⟩] at unlinked
    cases unlinked

namespace Redaction

/-- A person has an email, which is dangerous. -/
def personType : TypeDecl :=
  ⟨"Person", none, [⟨"name", .text, 1, false, false, none, []⟩, ⟨"email", .text, 2, false, true, none, []⟩]⟩

/-- A note has nothing dangerous. -/
def noteType : TypeDecl :=
  ⟨"Note", none, [⟨"text", .text, 1, false, false, none, []⟩]⟩

/-- Folders have an owner, parts and a label. Parts may be folders, labels may only be notes. -/
def folderType : TypeDecl :=
  ⟨"Folder", none, [⟨"owner", .record "Person", 1, false, false, none, []⟩,
    ⟨"parts", .list (.openType "Part"), 2, false, false, none, []⟩,
    ⟨"label", .openType "Label", 3, false, false, none, []⟩]⟩

def folderDeclarations : Declarations :=
  ⟨[personType, noteType, folderType], [], [⟨"Part", .variety, ["Folder", "Note"]⟩, ⟨"Label", .variety, ["Note"]⟩]⟩

def personLayout : Layout :=
  folderDeclarations.layout 0 [] personType []

def noteLayout : Layout :=
  folderDeclarations.layout 0 [] noteType []

/-- The layout of a folder, which leads to emails in its owner and its parts but not in its label. -/
def folderLayout : Layout :=
  folderDeclarations.layout 0 [] folderType []

def folderSchema : Schema :=
  ⟨0, [personLayout, noteLayout, folderLayout], [], folderDeclarations.opens⟩

theorem compile_folder : Schema.compile 0 folderDeclarations = .ok folderSchema := by decide +kernel

/-- A person with an email. -/
def ada : Record :=
  ⟨personLayout, [.value (.text "ada"), .value (.text "a@b")]⟩

def reminder : Record :=
  ⟨noteLayout, [.value (.text "soon")]⟩

/-- A folder with a note for a label. -/
def labelled : Record :=
  ⟨folderLayout, [.null, .absent, .value (.record reminder)]⟩

/-- The record has fields of the shapes that they are declared for. -/
theorem fits_labelled (held : (Value.record labelled).Holds inner) : folderSchema.Fits inner := by
  cases held with
  | here =>
    refine ⟨rfl, fun i info v described there => ?_⟩
    rcases i with _ | _ | _ | i <;> cases there
    cases described
    decide +kernel
  | field member deeper =>
    -- There is one value, the label, and in it one text.
    obtain rfl : _ = Value.record reminder := by simpa [labelled] using member
    cases deeper with
    | here =>
      refine ⟨rfl, fun i info v described there => ?_⟩
      rcases i with _ | i <;> cases there
      cases described
      rfl
    | field member deeper =>
      obtain rfl : _ = Value.text "soon" := by simpa [reminder] using member
      cases deeper

end Redaction

/-- A folder leads to emails, over its owner and over folders that are its parts. Its label leads to no identifiable
record. -/
theorem Schema.flags_exact_folder :
    Redaction.folderSchema.Reaches FieldDecl.dangerous "Folder" ∧
      ∀ inner, (Value.record Redaction.reminder).Holds inner → inner.layout.identifiable = false := by
  have found : Redaction.folderSchema.type? "Folder" = some Redaction.folderLayout := by decide +kernel
  obtain ⟨capable, -, -, kept⟩ := flags_exact Redaction.compile_folder found
  exact ⟨capable.mp rfl, (kept Redaction.labelled rfl fun _ => Redaction.fits_labelled).2 2 _ _ rfl rfl rfl⟩

end EntityGraph
