import EntityGraph.Json.Emit
import EntityGraph.Proofs.Record.Induction
import EntityGraph.Proofs.Schema.Reachability

/-! What a document is made of: one member for each field that is shown. So the default document of a record says
nothing about its dangerous fields. -/

namespace EntityGraph

open List

namespace Emit

variable {fields : List (Field Value)} {infos : List FieldInfo} {before : List (String × Json)}

/-- What a field adds to a document, under its name. -/
def member? (flag : Bool) (info : FieldInfo) (f : Field Value) : Option Json :=
  if leavesOut flag info then none
  else match f with
    | .value v => some (value flag v info.kind)
    | .null => some .null
    | .absent => none

theorem value_record (flag : Bool) (r : Record) (kind : Kind) :
    value flag (.record r) kind = .object (fieldMembers flag r.fields r.layout.fields (tag kind r.layout.name)) := by
  rcases r with ⟨layout, fields⟩
  simp only [value, record]

variable {flag : Bool}

theorem fieldMembers_cons (f : Field Value) (info : FieldInfo) (fields : List (Field Value)) (infos : List FieldInfo)
    (before : List (String × Json)) :
    fieldMembers flag (f :: fields) (info :: infos) before = fieldMembers flag fields infos
      (((member? flag info f).map fun j => Entries.insert info.name j before).getD before) := by
  cases hidden : leavesOut flag info <;> cases f <;> simp [fieldMembers, member?, hidden]

@[simp] theorem fieldMembers_nil (fields : List (Field Value)) (before : List (String × Json)) :
    fieldMembers flag fields [] before = before := by
  rcases fields with _ | ⟨_ | _, _⟩ <;> rfl

/-- Members that are added under other names leave those that are there alone. -/
theorem find?_fieldMembers_of_ne (fields : List (Field Value)) (infos : List FieldInfo) (before : List (String × Json))
    (name : String) (apart : ∀ info ∈ infos, info.name ≠ name) :
    Entries.find? name (fieldMembers flag fields infos before) = Entries.find? name before := by
  induction fields generalizing infos before with
  | nil => cases infos <;> simp [fieldMembers]
  | cons f rest ih =>
    cases infos with
    | nil => simp
    | cons info infos =>
      rw [fieldMembers_cons, ih infos _ fun i member => apart i (.tail _ member)]
      cases member? flag info f with
      | none => rfl
      | some j => exact Entries.find?_insert_of_ne (Ne.symm (apart info mem_cons_self)) j before

/-- A document has the member of each position under its name, or else what it had there before. -/
theorem find?_fieldMembers (names : (infos.map fun f => f.name).Nodup) {i : Nat} {info : FieldInfo}
    (there : infos[i]? = some info) :
    Entries.find? info.name (fieldMembers flag fields infos before) =
      (fields[i]?.bind (member? flag info)).or (Entries.find? info.name before) := by
  induction fields generalizing infos before i with
  | nil => cases infos <;> rfl
  | cons f rest ih =>
    cases infos with
    | nil => cases there
    | cons head infos =>
      rw [map_cons, nodup_cons] at names
      have differs : ∀ other ∈ infos, other.name ≠ head.name := fun other member same =>
        names.1 (mem_map.mpr ⟨other, member, same⟩)
      rw [fieldMembers_cons]
      cases i with
      | zero =>
        cases there
        rw [find?_fieldMembers_of_ne rest infos _ info.name differs]
        cases added : member? flag info f with
        | none => simp [added]
        | some j => simp [added, Entries.find?_insert_self]
      | succ i =>
        -- What is added first stands under another name.
        rw [ih names.2 there]
        cases member? flag head f with
        | none => rfl
        | some j =>
          have other := differs info (mem_of_getElem? there)
          simp only [Option.map_some, Option.getD_some, Entries.find?_insert_of_ne other, getElem?_cons_succ]

/-- The members of a document depend on what each field adds alone. -/
theorem fieldMembers_congr {fields' : List (Field Value)}
    (length : fields.length = fields'.length)
    (same : ∀ (i : Nat) (info : FieldInfo), infos[i]? = some info →
      fields[i]?.bind (member? flag info) = fields'[i]?.bind (member? flag info)) :
    fieldMembers flag fields infos before = fieldMembers flag fields' infos before := by
  induction fields generalizing fields' infos before with
  | nil =>
    cases fields' with
    | nil => rfl
    | cons => cases length
  | cons f rest ih =>
    cases fields' with
    | nil => cases length
    | cons f' rest' =>
      cases infos with
      | nil => simp
      | cons info infos =>
        have first : member? flag info f = member? flag info f' := same 0 info rfl
        rw [fieldMembers_cons, fieldMembers_cons, first]
        exact ih (by simpa using length) fun i info' there => same (i + 1) info' there

section congr

variable {kind : Kind}

theorem itemDocuments_congr {items items' : List (Option Value)}
    (each : List.Forall₂ (Option.Rel fun v w => value flag v kind = value flag w kind) items items') :
    itemDocuments flag items kind = itemDocuments flag items' kind := by
  induction each with
  | nil => rfl
  | cons first _ ih =>
    cases first with
    | none => simp only [itemDocuments, ih]
    | some same => simp only [itemDocuments, ih, same]

theorem entryMembers_congr {entries entries' : List (String × Option Value)}
    (each : List.Forall₂ (Entries.Rel fun v w => value flag v kind = value flag w kind) entries entries')
    (before : List (String × Json)) :
    entryMembers flag entries kind before = entryMembers flag entries' kind before := by
  induction each generalizing before with
  | nil => rfl
  | cons first _ ih =>
    rcases first with ⟨key, first⟩
    cases first with
    | none => simp only [entryMembers, ih]
    | some same => simp only [entryMembers, ih, same]

end congr

end Emit

/-- Apart from dangerous fields the values are the same: such a field may hold anything and may be missing, in records
at any depth. -/
inductive Value.SafelyAlike : Value → Value → Prop where
  | same (v : Value) : SafelyAlike v v
  | record {layout : Layout} {fields fields' : List (Field Value)} (length : fields.length = fields'.length)
    (safe : ∀ (i : Nat) (info : FieldInfo) (f f' : Field Value), layout.fields[i]? = some info →
      info.dangerous = false → fields[i]? = some f → fields'[i]? = some f' → Field.Rel SafelyAlike f f') :
    SafelyAlike (.record ⟨layout, fields⟩) (.record ⟨layout, fields'⟩)
  | list {items items' : List (Option Value)} (each : List.Forall₂ (Option.Rel SafelyAlike) items items') :
    SafelyAlike (.list items) (.list items')
  | map {entries entries' : List (String × Option Value)}
    (each : List.Forall₂ (Entries.Rel SafelyAlike) entries entries') : SafelyAlike (.map entries) (.map entries')

/-- The default documents of values that differ in dangerous fields alone are the same. -/
theorem Value.SafelyAlike.document_eq {v w : Value} (alike : v.SafelyAlike w) (kind : Kind) :
    Emit.value false v kind = Emit.value false w kind := by
  induction v using Value.induct generalizing w kind with
  | scalar v plain =>
    cases alike with
    | same => rfl
    | _ => cases plain
  | record r ih =>
    cases alike with
    | same => rfl
    | @record layout fields fields' length safe =>
      rw [Emit.value_record, Emit.value_record]
      refine congrArg Json.object (Emit.fieldMembers_congr length fun i info there => ?_)
      cases dangerous : info.dangerous with
      | true =>
        -- What a dangerous field adds is nothing, whether it is there or not.
        have none : Emit.member? false info = fun _ => Option.none := by
          funext f
          simp [Emit.member?, Emit.leavesOut, dangerous]
        rw [none]
        cases fields[i]? <;> cases fields'[i]? <;> rfl
      | false =>
        cases here : fields[i]? with
        | none =>
          rw [List.getElem?_eq_none_iff, length, ← List.getElem?_eq_none_iff] at here
          rw [here]
        | some f =>
          have inside := (List.getElem?_eq_some_iff.mp here).1
          rw [length] at inside
          have other := getElem?_eq_getElem inside
          have related := safe i info f _ there dangerous here other
          rw [other]
          generalize fields'[i] = f' at related
          cases related with
          | value alike => simp only [Option.bind_some, Emit.member?, ih _ (mem_of_getElem? here) alike]
          | _ => rfl
  | list items ih =>
    cases alike with
    | same => rfl
    | list each =>
      rw [Emit.value, Emit.value, Emit.itemDocuments_congr]
      exact items_imp each fun v w member _ alike => ih v member alike _
  | map entries ih =>
    cases alike with
    | same => rfl
    | map each =>
      rw [Emit.value, Emit.value, Emit.entryMembers_congr]
      exact entries_imp each fun k v w member _ alike => ih k v member alike _

/-- The default document of a record reveals nothing about dangerous fields: it is the same for records that differ in
what these hold and in whether they are there, at any depth. -/
theorem RecordOf.toJson_hides_dangerous {a b : Record} (alike : (Value.record a).SafelyAlike (.record b)) :
    a.toJson false = b.toJson false ∧ a.jsonMembers false = b.jsonMembers false := by
  have documents := alike.document_eq (.record a.layout.name)
  have members : a.jsonMembers false = b.jsonMembers false := by
    simp only [Emit.value, Emit.tag, Json.object.injEq] at documents
    exact documents
  exact ⟨congrArg Json.object members, members⟩

namespace Redaction

/-- A folder that a person owns, with some parts. -/
def folderOf (email : Field Value) (parts : List (Option Value)) : Record :=
  ⟨folderLayout, [.value (.record ⟨personLayout, [.value (.text "ada"), email]⟩), .value (.list parts), .null]⟩

theorem safelyAlike_folderOf (email email' : Field Value) {parts parts' : List (Option Value)}
    (each : List.Forall₂ (Option.Rel Value.SafelyAlike) parts parts') :
    (Value.record (folderOf email parts)).SafelyAlike (.record (folderOf email' parts')) := by
  refine .record rfl fun i info f f' described safe here there => ?_
  rcases i with _ | _ | _ | i <;> cases here <;> cases there
  · refine .value (.record rfl fun i info f f' described safe here there => ?_)
    rcases i with _ | _ | i <;> cases here <;> cases there <;> cases described
    · exact .value (.same _)
    · cases safe
  · exact .value (.list each)
  · exact .null

end Redaction

/-- The document of a folder is the same with and without the emails of its owner and of the owner of its part. -/
theorem RecordOf.toJson_hides_dangerous_folder :
    (Redaction.folderOf (.value (.text "a@b")) [some (.record (Redaction.folderOf .null [])), none]).toJson false =
      (Redaction.folderOf .absent [some (.record (Redaction.folderOf (.value (.text "b@c")) [])), none]).toJson false :=
  (toJson_hides_dangerous (Redaction.safelyAlike_folderOf _ _
    (.cons (.some (Redaction.safelyAlike_folderOf _ _ .nil)) (.cons .none .nil)))).1

end EntityGraph
