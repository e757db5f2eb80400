import EntityGraph.Proofs.Json.Canonical

/-! The text that is hashed for a record determines its type name and the document of its identity. -/

namespace EntityGraph

namespace Json

variable {members : List (String × Json)}

/-- The keys stand in order, and so do those of the values. -/
def InOrder (members : List (String × Json)) : Prop :=
  members.Pairwise (fun a b => a.1 < b.1) ∧ ∀ e ∈ members, e.2.ordered = e.2

/-- One member more keeps the order. -/
theorem InOrder.insert (inOrder : InOrder members) (k : String) {j : Json}
    (same : j.ordered = j) : InOrder (Entries.insert k j members) := by
  refine ⟨Entries.pairwise_insert inOrder.1, fun e mem => ?_⟩
  rcases Entries.of_mem_insert mem with rfl | old
  · exact same
  · exact inOrder.2 e old

/-- An object that is in order stays as it is. -/
theorem InOrder.ordered (inOrder : InOrder members) : (Json.object members).ordered = .object members := by
  -- The values stay as they are, and then the keys are in order already.
  have values : ∀ ms : List (String × Json), (∀ e ∈ ms, e.2.ordered = e.2) → orderedMembers ms = ms := by
    intro ms
    induction ms with
    | nil => exact fun _ => rfl
    | cons e rest ih =>
      intro same
      rcases e with ⟨k, j⟩
      rw [orderedMembers, ih fun e mem => same e (.tail _ mem)]
      rw [show j.ordered = j from same (k, j) List.mem_cons_self]
  rw [Json.ordered, values members inOrder.2, Entries.ofList_of_sorted inOrder.1]

mutual

/-- Documents that are read from a text are in order. -/
theorem Spelled.ordered : (j : Json) → (room : Nat) → j.Spelled room → j.ordered = j
  | .null, _, _ => rfl
  | .bool _, _, _ => rfl
  | .number _, _, _ => rfl
  | .string _, _, _ => rfl
  | .array _, 0, spelled => spelled.elim
  | .object _, 0, spelled => spelled.elim
  | .array items, room + 1, spelled => by rw [Json.ordered, orderedItems_of_spelled items room spelled]
  | .object members, room + 1, spelled =>
    InOrder.ordered ⟨spelled.1, ordered_of_membersSpelled members room spelled.2⟩

theorem orderedItems_of_spelled : (items : List Json) → (room : Nat) → itemsSpelled items room →
    orderedItems items = items
  | [], _, _ => rfl
  | j :: rest, room, spelled => by
    rw [orderedItems, Spelled.ordered j room spelled.1, orderedItems_of_spelled rest room spelled.2]

theorem ordered_of_membersSpelled : (members : List (String × Json)) → (room : Nat) → membersSpelled members room →
    ∀ e ∈ members, e.2.ordered = e.2
  | [], _, _ => by simp
  | (_, j) :: rest, room, spelled =>
    List.forall_mem_cons.mpr ⟨Spelled.ordered j room spelled.1, ordered_of_membersSpelled rest room spelled.2⟩

end

end Json

namespace Emit

open Json

theorem inOrder_nil : InOrder [] :=
  ⟨.nil, fun _ mem => nomatch mem⟩

/-- What is kept of an unknown record is in order. -/
theorem inOrder_unknownMembers (body : UnknownBody) : InOrder (unknownMembers body) := by
  obtain ⟨sorted, spelled⟩ := unknownMembers_spelled body
  exact ⟨sorted, ordered_of_membersSpelled _ _ spelled⟩

theorem inOrder_tag (kind : Kind) (name : String) : InOrder (tag kind name) := by
  unfold tag
  split
  · exact ⟨List.pairwise_singleton _ _, fun e mem => by cases List.mem_singleton.mp mem; rfl⟩
  · exact inOrder_nil

mutual

/-- The document of a value is in order. -/
theorem ordered_value (flag : Bool) : (v : Value) → (kind : Kind) → (value flag v kind).ordered = value flag v kind
  | .bool _, _ => rfl
  | .int _, _ => rfl
  | .double x, _ => by
    rw [value]
    -- A double that is not finite is null, which has no order either.
    split <;> rfl
  | .text _, _ => rfl
  | .enum _, _ => rfl
  | .record r, kind => (inOrder_record flag r _ (inOrder_tag kind r.layout.name)).ordered
  | .unknown u, _ => ((inOrder_unknownMembers u.body).insert typeNameKey rfl).ordered
  | .list items, kind => by rw [value, Json.ordered, orderedItems_itemDocuments flag items kind.element]
  | .map entries, kind => (inOrder_entryMembers flag entries kind.element [] inOrder_nil).ordered

theorem inOrder_record (flag : Bool) : (r : RecordOf Value) → (before : List (String × Json)) → InOrder before →
    InOrder (record flag r before)
  | ⟨layout, fields⟩, before, inOrder => inOrder_fieldMembers flag fields layout.fields before inOrder

theorem inOrder_fieldMembers (flag : Bool) : (fields : List (Field Value)) → (infos : List FieldInfo) →
    (before : List (String × Json)) → InOrder before → InOrder (fieldMembers flag fields infos before)
  | .value v :: fields, info :: infos, before, inOrder => by
    rw [fieldMembers]
    refine inOrder_fieldMembers flag fields infos _ ?_
    -- A field that is left out adds nothing.
    split
    · exact inOrder
    · exact inOrder.insert info.name (ordered_value flag v info.kind)
  | .null :: fields, info :: infos, before, inOrder => by
    rw [fieldMembers]
    refine inOrder_fieldMembers flag fields infos _ ?_
    split
    · exact inOrder
    · exact inOrder.insert info.name rfl
  | .absent :: fields, _ :: infos, before, inOrder => by
    rw [fieldMembers]
    exact inOrder_fieldMembers flag fields infos before inOrder
  | [], _, _, inOrder => by
    rw [fieldMembers]
    · exact inOrder
    all_goals simp
  | f :: _, [], _, inOrder => by
    cases f <;> exact inOrder

theorem orderedItems_itemDocuments (flag : Bool) : (items : List (Option Value)) → (kind : Kind) →
    orderedItems (itemDocuments flag items kind) = itemDocuments flag items kind
  | [], _ => rfl
  | some v :: rest, kind => by
    rw [itemDocuments, orderedItems, ordered_value flag v kind, orderedItems_itemDocuments flag rest kind]
  | none :: rest, kind => by
    rw [itemDocuments, orderedItems, orderedItems_itemDocuments flag rest kind]
    rfl

theorem inOrder_entryMembers (flag : Bool) : (entries : List (String × Option Value)) → (kind : Kind) →
    (before : List (String × Json)) → InOrder before → InOrder (entryMembers flag entries kind before)
  | [], _, _, inOrder => inOrder
  | (k, some v) :: rest, kind, _, inOrder =>
    inOrder_entryMembers flag rest kind _ (inOrder.insert k (ordered_value flag v kind))
  | (k, none) :: rest, kind, _, inOrder => inOrder_entryMembers flag rest kind _ (inOrder.insert k rfl)

end

end Emit

/-- Documents of records are in order already. -/
theorem RecordOf.ordered_toJson (r : Record) (includeDangerous : Bool) :
    (r.toJson includeDangerous).ordered = r.toJson includeDangerous :=
  (Emit.inOrder_record includeDangerous r [] Emit.inOrder_nil).ordered

/-- Documents of one type name give the same text if they are the same. -/
theorem RecordOf.identityText_eq_iff {a b : Record} (names : a.typeName = b.typeName) :
    a.identityText = b.identityText ↔ a.identity.toJson true = b.identity.toJson true := by
  refine ⟨fun same => ?_, fun same => by rw [identityText, identityText, names, same]⟩
  have chars := congrArg String.toList same
  simp only [identityText, RecordOf.toJson, Json.canonical_eq, String.toList_append, String.toList_ofList] at chars
  have objects := (Json.append_canonicalChars chars).2
  rwa [← RecordOf.toJson, ← RecordOf.toJson, ordered_toJson, ordered_toJson] at objects

/-- A name with the canonical text of an object behind it determines the name and the object, up to the order of its
members. So records have the same text for their hash only if they have the same type name and the same identity
document. -/
theorem RecordOf.identityText_unambiguous :
    (∀ (name name' : String) (members members' : List (String × Json)),
      name ++ (Json.object members).canonical = name' ++ (Json.object members').canonical ↔
        name = name' ∧ (Json.object members).ordered = (Json.object members').ordered) ∧
    ∀ r r' : Record, Utf8.encode r.identityText = Utf8.encode r'.identityText ↔
      r.typeName = r'.typeName ∧ r.identity.toJson true = r'.identity.toJson true := by
  have texts : ∀ (name name' : String) (members members' : List (String × Json)),
      name ++ (Json.object members).canonical = name' ++ (Json.object members').canonical ↔
        name = name' ∧ (Json.object members).ordered = (Json.object members').ordered := by
    intro name name' members members'
    rw [Json.canonical_eq, Json.canonical_eq]
    constructor
    · intro same
      have chars := congrArg String.toList same
      simp only [String.toList_append, String.toList_ofList] at chars
      -- The object starts at one place only, so the names end there.
      obtain ⟨names, objects⟩ := Json.append_canonicalChars chars
      exact ⟨String.toList_inj.mp names, objects⟩
    · rintro ⟨rfl, objects⟩
      rw [Json.canonicalChars_eq, Json.canonicalChars_eq, objects]
  refine ⟨texts, fun r r' => ⟨fun same => ?_, fun same => ?_⟩⟩
  · -- The bytes of a text determine it, and the documents of records are in order.
    have decoded := congrArg Utf8.decode? same
    rw [Wire.Reader.decode?_encode, Wire.Reader.decode?_encode] at decoded
    have parts := (texts _ _ _ _).mp (Option.some.inj decoded)
    rwa [← RecordOf.toJson, ← RecordOf.toJson, ordered_toJson, ordered_toJson] at parts
  · rw [identityText, identityText, same.1, same.2]

end EntityGraph
