import EntityGraph.Json.TokenReader
import EntityGraph.Proofs.Schema.Compile
import EntityGraph.Proofs.Wire.Parts

/-! Listed values of enumerations: bytes name them by number and documents by name.

Main statement: a schema is accepted only if numbers tell listed values apart, so all of them come back from bytes.
Names are not checked, and from a document the first value with the name comes back. -/

namespace EntityGraph

variable {serial : Nat} {d : Declarations} {s : Schema} {name : String} {e : Enumeration}

/-- The bytes of one value are read as another, whatever follows them. -/
def EnumValue.SentAs (s : Schema) (name : String) (v w : EnumValue) : Prop :=
  ∀ F site flagged depth, ∃ bytes, Wire.value site flagged (.enum v) (.enum name) depth = .ok ([], bytes) ∧
    ∀ room rest, Wire.Reader.value F s room (.enum name) (bytes ++ rest) = .ok (.enum w) rest

/-- The document of one value is read as another, from the document and straight from its tokens. -/
def EnumValue.ShownAs (s : Schema) (name : String) (v w : EnumValue) : Prop :=
  ∀ F includeDangerous site depth room,
    DocumentReader.value F s (Emit.value includeDangerous (.enum v) (.enum name)) site (.enum name) depth =
        .ok (some (.enum w)) ∧
      TokenReader.value F s (.string (some v.name)) site (.enum name) room depth = .ok (some (.enum w))

namespace Schema

theorem sentAs_of_listed (compiled : compile serial d = .ok s) (found : s.enum? name = some e) {v : UInt32 × String}
    (listed : v ∈ e.values) : EnumValue.SentAs s name ⟨v.1, v.2⟩ ⟨v.1, v.2⟩ := by
  obtain ⟨nonzero, named⟩ := nameOf?_of_listed compiled found listed
  intro F site flagged depth
  refine ⟨_, by rw [Wire.value], fun room rest => ?_⟩
  -- A listed number is not zero, so no name follows it.
  have taken : Wire.Reader.Takes (Wire.Reader.enum s name) (Wire.enum ⟨v.1, v.2⟩) True True (.enum ⟨v.1, v.2⟩) :=
    (Wire.Reader.enum_takes (.inr ⟨e, found, nonzero, named⟩)).congr fun _ =>
      iff_of_true (fun dynamic => absurd (by simpa [EnumValue.isDynamic] using dynamic) nonzero) trivial
  cases room <;> exact taken.run trivial rest

theorem shownAs_of_idOf? (found : s.enum? name = some e) {id id' : UInt32} {value : String}
    (first : e.idOf? value = some id') : EnumValue.ShownAs s name ⟨id, value⟩ ⟨id', value⟩ := by
  have read : DocumentReader.enumValue s name value = ⟨id', value⟩ := by
    rw [DocumentReader.enumValue, found, Option.bind_some, first]
  intro F includeDangerous site depth room
  rw [← read]
  exact ⟨rfl, rfl⟩

/-- Numbers tell the values apart, so names lead back to numbers exactly if they tell them apart as well. -/
theorem idOf?_iff_nodup (compiled : compile serial d = .ok s) (found : s.enum? name = some e) :
    (∀ v ∈ e.values, e.idOf? v.2 = some v.1) ↔ (e.values.map Prod.snd).Nodup := by
  constructor
  · -- Two values with one name would have one number.
    intro back
    refine (List.Nodup.of_map Prod.fst (ids_of_enum? compiled found).1).map_on fun v listed w listed' same => ?_
    have number := back v listed
    rw [same, back w listed', Option.some.injEq] at number
    exact Prod.ext number.symm same
  · exact fun distinct v listed => Option.map_eq_some_iff.mpr ⟨v, find?_of_mem Prod.snd distinct listed, rfl⟩

/-- In an accepted schema a listed value comes back from its bytes as itself, and from its document as the first value
with its name. So all listed values come back from documents exactly if no name is listed twice. -/
theorem listed_restored (compiled : compile serial d = .ok s) (found : s.enum? name = some e) :
    (∀ v ∈ e.values, e.nameOf? v.1 = some v.2 ∧ EnumValue.SentAs s name ⟨v.1, v.2⟩ ⟨v.1, v.2⟩) ∧
      (∀ v ∈ e.values, ∃ id, e.idOf? v.2 = some id ∧ EnumValue.ShownAs s name ⟨v.1, v.2⟩ ⟨id, v.2⟩) ∧
      ((∀ v ∈ e.values, e.idOf? v.2 = some v.1) ↔ (e.values.map Prod.snd).Nodup) := by
  refine ⟨fun v listed => ?_, fun v listed => ?_, idOf?_iff_nodup compiled found⟩
  · exact ⟨(nameOf?_of_listed compiled found listed).2, sentAs_of_listed compiled found listed⟩
  · have some : (e.idOf? v.2).isSome = true := by
      rw [Enumeration.idOf?, Option.isSome_map, List.find?_isSome]
      exact ⟨v, listed, beq_self_eq_true v.2⟩
    obtain ⟨id, first⟩ := Option.isSome_iff_exists.mp some
    exact ⟨id, first, shownAs_of_idOf? found first⟩

/-- An enumeration with a name that is listed for two numbers. -/
def shades : Enumeration :=
  ⟨"Shade", [(7, "dark"), (2, "light"), (9, "dark")]⟩

theorem compile_shades : compile 0 ⟨[], [shades], []⟩ = .ok ⟨0, [], [shades], []⟩ := by
  decide +kernel

/-- The second dark shade comes back from its bytes, and from its document as the first one. -/
theorem listed_restored_dark : EnumValue.SentAs ⟨0, [], [shades], []⟩ "Shade" ⟨9, "dark"⟩ ⟨9, "dark"⟩ ∧
    EnumValue.ShownAs ⟨0, [], [shades], []⟩ "Shade" ⟨9, "dark"⟩ ⟨7, "dark"⟩ := by
  obtain ⟨sent, shown, -⟩ := @listed_restored _ _ _ "Shade" shades compile_shades rfl
  obtain ⟨id, first, shown⟩ := shown (9, "dark") (by decide)
  cases first
  exact ⟨(sent (9, "dark") (by decide)).2, shown⟩

/-- Not every listed value of an accepted schema comes back from its document. -/
theorem not_listed_restored : ¬ ∀ (d : Declarations) (s : Schema) (name : String) (e : Enumeration),
    compile 0 d = .ok s → s.enum? name = some e → ∀ v ∈ e.values, EnumValue.ShownAs s name ⟨v.1, v.2⟩ ⟨v.1, v.2⟩ := by
  intro claim
  have shown := claim _ _ "Shade" shades compile_shades rfl (9, "dark") (by decide)
  obtain ⟨read, -⟩ := shown ⟨fun _ _ => .absent, fun _ _ => .absent⟩ false ⟨"", ""⟩ 0 0
  cases read

end Schema

end EntityGraph
