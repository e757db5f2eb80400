import EntityGraph.Identity
import EntityGraph.Proofs.Json.Emitted

/-! What the key of a record depends on: its type name, and one member of a document for each identifying field. -/

namespace EntityGraph

open List

variable {i : Nat}

/-- What a field of an entity adds to the document of its identity. -/
def FieldInfo.member? (info : FieldInfo) : Field Value → Option Json
  | .value v => if info.identifying then some (Emit.value true (Identity.ofValue v) info.kind) else none
  | .null => if info.identifying then some .null else none
  | .absent => none

namespace Identity

variable {fields fields' : List (Field Value)}

/-- What a field adds to the document of an identity. Where some fields identify a record the others add nothing. -/
def part? (identifiable : Bool) (info : FieldInfo) (f : Field Value) : Option Json :=
  if identifiable && !info.identifying then none
  else match f with
    | .value v => some (Emit.value true (ofValue v) info.kind)
    | .null => some .null
    | .absent => none

theorem part?_true (info : FieldInfo) : part? true info = info.member? := by
  funext f
  cases identifying : info.identifying <;> cases f <;> simp [part?, FieldInfo.member?, identifying]

section part

variable {identifiable : Bool} {info : FieldInfo}

/-- A field that does not count adds nothing. -/
theorem part?_of_skipped (skipped : (identifiable && !info.identifying) = true) (f : Field Value) :
    part? identifiable info f = none := by
  simp only [part?, skipped, if_true]

theorem part?_absent : part? identifiable info .absent = none := by
  simp [part?]

/-- A field that counts adds its null. -/
theorem part?_null (counts : (identifiable && !info.identifying) = false) :
    part? identifiable info .null = some .null := by
  simp only [part?, counts, Bool.false_eq_true, if_false]

/-- It adds the document of its value's identity. -/
theorem part?_value (counts : (identifiable && !info.identifying) = false) (v : Value) :
    part? identifiable info (.value v) = some (Emit.value true (ofValue v) info.kind) := by
  simp only [part?, counts, Bool.false_eq_true, if_false]

end part

/-- What a field of a record becomes in the identity. -/
def ofField (identifiable : Bool) (f : Field Value) (info : FieldInfo) : Field Value :=
  if identifiable && !info.identifying then .absent
  else match f with
    | .value v => .value (ofValue v)
    | f => f

/-- Fields are replaced one by one. -/
theorem ofFields_eq (identifiable : Bool) (fields : List (Field Value)) (infos : List FieldInfo) :
    ofFields identifiable fields infos = List.zipWith (ofField identifiable) fields infos := by
  induction fields generalizing infos with
  | nil => cases infos <;> rfl
  | cons f rest ih =>
    cases infos with
    | nil => cases f <;> rfl
    | cons info infos => cases f <;> simp [ofFields, ofField, ih]

/-- So are elements. -/
theorem ofItems_eq (items : List (Option Value)) : ofItems items = items.map (Option.map ofValue) := by
  induction items with
  | nil => rfl
  | cons item rest ih => cases item <;> simp [ofItems, ih]

/-- So are entries. -/
theorem ofEntries_eq (entries : List (String × Option Value)) :
    ofEntries entries = entries.map fun e => (e.1, e.2.map ofValue) := by
  induction entries with
  | nil => rfl
  | cons e rest ih => rcases e with ⟨k, _ | v⟩ <;> simp [ofEntries, ih]

section members

variable {identifiable : Bool} {infos : List FieldInfo}

theorem member?_ofField (f : Field Value) (info : FieldInfo) :
    Emit.member? true info (ofField identifiable f info) = part? identifiable info f := by
  cases skipped : (identifiable && !info.identifying) <;> cases f <;>
    simp [Emit.member?, Emit.leavesOut, ofField, part?, skipped]

/-- The field at a position of an identity adds its part to the document. -/
theorem bind_ofFields {info : FieldInfo}
    (there : infos[i]? = some info) : (ofFields identifiable fields infos)[i]?.bind (Emit.member? true info) =
      fields[i]?.bind (part? identifiable info) := by
  rw [ofFields_eq, getElem?_zipWith, there]
  cases fields[i]? with
  | none => rfl
  | some f => exact member?_ofField f info

/-- The document of an identity, made of the members of its fields. -/
theorem fieldMembers_ofFields (f : Field Value) (info : FieldInfo) (fields : List (Field Value))
    (infos : List FieldInfo) (before : List (String × Json)) :
    Emit.fieldMembers true (ofFields identifiable (f :: fields) (info :: infos)) (info :: infos) before =
      Emit.fieldMembers true (ofFields identifiable fields infos) infos
        (((part? identifiable info f).map fun j => Entries.insert info.name j before).getD before) := by
  rw [ofFields_eq, zipWith_cons_cons, Emit.fieldMembers_cons, member?_ofField, ← ofFields_eq]

/-- The document of an identity depends on the members of the fields alone. -/
theorem fieldMembers_congr {before : List (String × Json)} (length : fields.length = fields'.length)
    (same : ∀ (i : Nat) (info : FieldInfo), infos[i]? = some info →
      fields[i]?.bind (part? identifiable info) = fields'[i]?.bind (part? identifiable info)) :
    Emit.fieldMembers true (ofFields identifiable fields infos) infos before =
      Emit.fieldMembers true (ofFields identifiable fields' infos) infos before :=
  Emit.fieldMembers_congr (by simp [ofFields_eq, length]) fun i info there => by
    rw [bind_ofFields there, bind_ofFields there, same i info there]

end members

/-- The documents of two values are the same wherever they stand. -/
def SameDocument (v w : Value) : Prop :=
  ∀ kind, Emit.value true (ofValue v) kind = Emit.value true (ofValue w) kind

/-- Lists have one document if their elements have. -/
theorem itemDocuments_eq {items items' : List (Option Value)}
    (each : List.Forall₂ (Option.Rel SameDocument) items items') (kind : Kind) :
    Emit.itemDocuments true (ofItems items) kind = Emit.itemDocuments true (ofItems items') kind := by
  rw [ofItems_eq, ofItems_eq]
  refine Emit.itemDocuments_congr (forall₂_map_left_iff.mpr (forall₂_map_right_iff.mpr (each.imp ?_)))
  intro a b related
  cases related with
  | none => exact .none
  | some same => exact .some (same kind)

/-- So have maps, if their values have. -/
theorem entryMembers_eq {entries entries' : List (String × Option Value)}
    (each : List.Forall₂ (Entries.Rel SameDocument) entries entries') (kind : Kind) (before : List (String × Json)) :
    Emit.entryMembers true (ofEntries entries) kind before =
      Emit.entryMembers true (ofEntries entries') kind before := by
  rw [ofEntries_eq, ofEntries_eq]
  refine Emit.entryMembers_congr (forall₂_map_left_iff.mpr (forall₂_map_right_iff.mpr (each.imp ?_))) before
  rintro _ _ ⟨key, related⟩
  cases related with
  | none => exact .mk key .none
  | some same => exact .mk key (.some (same kind))

/-- So have fields. -/
theorem fieldMembers_eq_of_forall₂ {identifiable : Bool}
    (each : List.Forall₂ (Field.Rel SameDocument) fields fields') (infos : List FieldInfo)
    (before : List (String × Json)) : Emit.fieldMembers true (ofFields identifiable fields infos) infos before =
      Emit.fieldMembers true (ofFields identifiable fields' infos) infos before := by
  refine fieldMembers_congr each.length_eq fun i info _ => ?_
  cases found : fields'[i]? with
  | none =>
    rw [List.getElem?_eq_none_iff, ← each.length_eq, ← List.getElem?_eq_none_iff] at found
    rw [found]
  | some f' =>
    obtain ⟨f, here, first⟩ := exists_of_forall₂ each found
    rw [here]
    cases first with
    | value same => simp [part?, same info.kind]
    | _ => rfl

end Identity

theorem Identity.ofRecord_eq (r : Record) :
    ofRecord r = ⟨r.layout, ofFields r.layout.identifiable r.fields r.layout.fields⟩ := by
  rcases r with ⟨layout, fields⟩
  rw [ofRecord]

/-- The document of the identity of an entity. -/
theorem RecordOf.toJson_identity {r : Record} (identifiable : r.layout.identifiable = true) :
    r.identity.toJson true =
      .object (Emit.fieldMembers true (Identity.ofFields true r.fields r.layout.fields) r.layout.fields []) := by
  rcases r with ⟨layout, fields⟩
  simp only at identifiable
  simp only [RecordOf.identity, Identity.ofRecord, RecordOf.toJson, RecordOf.jsonMembers, Emit.record, identifiable]

/-- Entities of one identity have the same members. -/
theorem RecordOf.member?_eq_of_identity {a b : Record} (layout : a.layout = b.layout)
    (identifiable : a.layout.identifiable = true) (accepted : a.layout.Accepted)
    (same : a.identity.toJson true = b.identity.toJson true) {info : FieldInfo}
    (there : a.layout.fields[i]? = some info) : a.fields[i]?.bind info.member? = b.fields[i]?.bind info.member? := by
  rw [toJson_identity identifiable, toJson_identity (by rw [← layout]; exact identifiable), Json.object.injEq] at same
  have read := congrArg (Entries.find? info.name) same
  rw [← layout] at read
  rw [Emit.find?_fieldMembers accepted.names there, Emit.find?_fieldMembers accepted.names there,
    Identity.bind_ofFields there, Identity.bind_ofFields there, Identity.part?_true] at read
  simpa [Entries.find?] using read

section members

variable {a b : SizedRecord} (layout : a.layout = b.layout) (identifiable : a.layout.identifiable = true)
  (same : ∀ (i : Nat) (info : FieldInfo), a.layout.fields[i]? = some info →
    a.fields[i]?.bind info.member? = b.fields[i]?.bind info.member?)

include layout in
/-- Records of one layout have the same number of fields. -/
theorem SizedRecord.length_eq : a.fields.length = b.fields.length := by
  rw [a.sized, b.sized, layout]

include layout identifiable same

/-- Entities with the same members have the same key. -/
theorem RecordOf.key_eq_of_members : a.key = b.key := by
  have documents : a.identity.toJson true = b.identity.toJson true := by
    rw [toJson_identity identifiable, toJson_identity (by rw [← layout]; exact identifiable), ← layout]
    rw [Identity.fieldMembers_congr (SizedRecord.length_eq layout) fun i info there => by
      rw [Identity.part?_true]
      exact same i info there]
  rw [RecordOf.key, RecordOf.key, RecordOf.identityText, RecordOf.identityText, documents, RecordOf.typeName,
    RecordOf.typeName, layout]

/-- Entities with the same members have the same document wherever they stand. -/
theorem RecordOf.document_eq_of_members (kind : Kind) :
    Emit.value true (Identity.ofValue (.record a)) kind = Emit.value true (Identity.ofValue (.record b)) kind := by
  simp only [Identity.ofValue, Identity.ofRecord_eq, Emit.value_record, ← layout, identifiable]
  rw [Identity.fieldMembers_congr (SizedRecord.length_eq layout) fun i info there => by
    rw [Identity.part?_true]
    exact same i info there]

end members

end EntityGraph
