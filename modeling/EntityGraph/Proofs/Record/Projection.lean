import EntityGraph.Proofs.Record.Identity
import EntityGraph.Proofs.Record.State

/-! The identity of a record is a projection: it is its own identity and that of every record that differs in state
alone. -/

namespace EntityGraph

open List

open Relation

variable {r : Record}

/-- The second value is the first one with one field written that does not count for the identity: a field of an entity
that does not identify it, where the entity is the value or stands in a place that counts. -/
inductive Value.Amended : Value → Value → Prop where
  | state {r : Record} {i : Nat} {info : FieldInfo} (entity : r.layout.identifiable = true)
    (described : r.layout.fields[i]? = some info) (other : info.identifying = false) (f : Field Value) :
    Amended (.record r) (.record ⟨r.layout, r.fields.set i f⟩)
  | field {r : Record} {i : Nat} {info : FieldInfo} {v w : Value} (described : r.layout.fields[i]? = some info)
    (counts : r.layout.identifiable = true → info.identifying = true) (here : r.fields[i]? = some (.value v))
    (deeper : Amended v w) : Amended (.record r) (.record ⟨r.layout, r.fields.set i (.value w)⟩)
  | item {items : List (Option Value)} {i : Nat} {v w : Value} (here : items[i]? = some (some v))
    (deeper : Amended v w) : Amended (.list items) (.list (items.set i (some w)))
  | entry {entries : List (String × Option Value)} {i : Nat} {key : String} {v w : Value}
    (here : entries[i]? = some (key, some v)) (deeper : Amended v w) :
    Amended (.map entries) (.map (entries.set i (key, some w)))

namespace Identity

variable {i : Nat} {α : Type} {v w : Value}

theorem getElem?_ofRecord {info : FieldInfo} (described : r.layout.fields[i]? = some info) :
    (ofRecord r).fields[i]? = r.fields[i]?.map fun f => ofField r.layout.identifiable f info := by
  rw [ofRecord_eq, ofFields_eq, getElem?_zipWith, described]
  cases r.fields[i]? <;> rfl

/-- Records of one layout have the same identity if each position has. -/
theorem ofRecord_congr {r' : Record} (layout : r'.layout = r.layout)
    (each : ∀ (i : Nat) (info : FieldInfo), r.layout.fields[i]? = some info →
      (r'.fields[i]?.map fun f => ofField r.layout.identifiable f info) =
        r.fields[i]?.map fun f => ofField r.layout.identifiable f info) : ofRecord r' = ofRecord r := by
  rw [ofRecord_eq r', ofRecord_eq r, layout, RecordOf.mk.injEq, ofFields_eq, ofFields_eq]
  refine ⟨rfl, ext_getElem? fun i => ?_⟩
  rw [getElem?_zipWith, getElem?_zipWith]
  cases described : r.layout.fields[i]? with
  | none => cases r.fields[i]? <;> cases r'.fields[i]? <;> rfl
  | some info =>
    have here := each i info described
    cases there : r.fields[i]? <;> cases there' : r'.fields[i]? <;> simp_all

/-- An identity is its own identity. -/
theorem ofValue_ofValue (v : Value) : ofValue (ofValue v) = ofValue v := by
  induction v using Value.induct with
  | scalar v plain => cases v <;> first | rfl | cases plain
  | record r ih =>
    simp only [ofValue, Value.record.injEq]
    refine ofRecord_congr (by rw [ofRecord_eq]) fun i info described => ?_
    rw [getElem?_ofRecord described, Option.map_map]
    refine Option.map_congr fun f there => ?_
    -- A field that does not count is absent, and a value that counts is in its identity already.
    simp only [Function.comp, ofField]
    split
    · rfl
    · cases f with
      | value v => exact congrArg Field.value (ih v (mem_of_getElem? there))
      | _ => rfl
  | list items ih =>
    simp only [ofValue, ofItems_eq, List.map_map, Value.list.injEq]
    refine List.map_congr_left fun item member => ?_
    cases item with
    | none => rfl
    | some v => exact congrArg some (ih v member)
  | map entries ih =>
    simp only [ofValue, ofEntries_eq, List.map_map, Value.map.injEq]
    refine List.map_congr_left fun e member => ?_
    rcases e with ⟨k, _ | v⟩
    · rfl
    · exact congrArg (fun v => (k, some v)) (ih k v member)

theorem map_set {β : Type} {f : α → β} {items : List α} {a b : α} (here : items[i]? = some a)
    (same : f b = f a) : (items.set i b).map f = items.map f := by
  obtain ⟨inside, rfl⟩ := List.getElem?_eq_some_iff.mp here
  rw [List.map_set, same, ← List.map_set, List.set_getElem_self]

/-- Values that differ in state alone have the same identity. -/
theorem ofValue_amended (amended : v.Amended w) : ofValue w = ofValue v := by
  induction amended with
  | @state r i info entity described other f =>
    simp only [ofValue, Value.record.injEq]
    refine ofRecord_congr rfl fun j info' described' => ?_
    by_cases same : i = j
    · subst same
      rw [described] at described'
      cases described'
      -- Whatever is written there, the identity has nothing at this position.
      have dropped (g : Field Value) : ofField r.layout.identifiable g info = .absent := by
        simp [ofField, entity, other]
      simp only [dropped]
      by_cases inside : i < r.fields.length
      · rw [getElem?_set_self inside, getElem?_eq_getElem inside, Option.map_some, Option.map_some]
      · rw [set_eq_of_length_le (by omega)]
    · rw [getElem?_set_ne same]
  | @field r i info v w described counts here deeper ih =>
    simp only [ofValue, Value.record.injEq]
    refine ofRecord_congr rfl fun j info' described' => ?_
    by_cases same : i = j
    · subst same
      rw [getElem?_set_self (List.getElem?_eq_some_iff.mp here).1, here]
      simp only [Option.map_some, ofField, ih]
    · rw [getElem?_set_ne same]
  | @item items i v w here _ ih =>
    have same : (some w).map ofValue = (some v).map ofValue := congrArg some ih
    simp only [ofValue, ofItems_eq, map_set here same]
  | @entry entries i key v w here _ ih =>
    have same : (key, (some w).map ofValue) = (key, (some v).map ofValue) := by simp only [Option.map_some, ih]
    simp only [ofValue, ofEntries_eq]
    rw [map_set here same]

theorem ofValue_run (run : ReflTransGen Value.Amended v w) : ofValue w = ofValue v := by
  induction run with
  | refl => rfl
  | tail _ step ih => exact (ofValue_amended step).trans ih

/-- A list with its first element or its rest replaced, or nothing if both stay. -/
def amend {α : Type} (first : Option α) (later : Option (List α)) (item : α) (rest : List α) : Option (List α) :=
  if first.isSome || later.isSome then some (first.getD item :: later.getD rest) else none

mutual

/-- The identity of a value, or nothing if the value is unchanged. -/
def flatten? : Value → Option Value
  | .record r => (project? r).map .record
  | .list items => (flattenItems? items).map .list
  | .map entries => (flattenEntries? entries).map .map
  | _ => none

/-- The identity of a record, or nothing if the record is unchanged. -/
def project? : RecordOf Value → Option (RecordOf Value)
  | ⟨layout, fields⟩ => (projectFields? layout.identifiable fields layout.fields).map (.mk layout)

/-- The fields of the identity: a declared field that does not count is a change. -/
def projectFields? (identifiable : Bool) : List (Field Value) → List FieldInfo → Option (List (Field Value))
  | .value v :: fields, info :: infos =>
    amend (if identifiable && !info.identifying then some .absent else (flatten? v).map .value)
      (projectFields? identifiable fields infos) (.value v) fields
  | .null :: fields, info :: infos =>
    amend (if identifiable && !info.identifying then some .absent else none)
      (projectFields? identifiable fields infos) .null fields
  | .absent :: fields, _ :: infos => amend none (projectFields? identifiable fields infos) .absent fields
  | _, _ => none

/-- The elements of the identity of a list. -/
def flattenItems? : List (Option Value) → Option (List (Option Value))
  | [] => none
  | some v :: rest => amend ((flatten? v).map some) (flattenItems? rest) (some v) rest
  | none :: rest => amend none (flattenItems? rest) none rest

/-- The entries of the identity of a map. -/
def flattenEntries? : List (String × Option Value) → Option (List (String × Option Value))
  | [] => none
  | (k, some v) :: rest => amend ((flatten? v).map fun w => (k, some w)) (flattenEntries? rest) (k, some v) rest
  | (k, none) :: rest => amend none (flattenEntries? rest) (k, none) rest

end

@[simp] theorem getD_amend (first : Option α) (later : Option (List α)) (item : α) (rest : List α) :
    (amend first later item rest).getD (item :: rest) = first.getD item :: later.getD rest := by
  cases first <;> cases later <;> rfl

/-- Fields that are kept where they are unchanged are those of the identity. -/
theorem getD_projectFields? {identifiable : Bool} {fields : List (Field Value)} {infos : List FieldInfo}
    (each : ∀ v, .value v ∈ fields → (flatten? v).getD v = ofValue v) (sized : fields.length = infos.length) :
    (projectFields? identifiable fields infos).getD fields = ofFields identifiable fields infos := by
  induction fields generalizing infos with
  | nil => cases infos <;> rfl
  | cons f rest ih =>
    cases infos with
    | nil => cases sized
    | cons info infos =>
      have later := @ih infos (fun v member => each v (.tail _ member)) (Nat.succ.inj sized)
      cases f with
      | absent => rw [projectFields?, getD_amend, later, ofFields, Option.getD_none]
      | null =>
        rw [projectFields?, getD_amend, later, ofFields]
        split <;> rfl
      | value v =>
        rw [projectFields?, getD_amend, later, ofFields]
        split
        · rfl
        · rw [Option.getD_map, each v (.head _)]

theorem getD_flattenItems? {items : List (Option Value)}
    (each : ∀ v, some v ∈ items → (flatten? v).getD v = ofValue v) :
    (flattenItems? items).getD items = ofItems items := by
  induction items with
  | nil => rfl
  | cons item rest ih =>
    have later := ih fun v member => each v (.tail _ member)
    cases item with
    | none => rw [flattenItems?, getD_amend, later, ofItems, Option.getD_none]
    | some v => rw [flattenItems?, getD_amend, later, ofItems, Option.getD_map, each v (.head _)]

theorem getD_flattenEntries? {entries : List (String × Option Value)}
    (each : ∀ k v, (k, some v) ∈ entries → (flatten? v).getD v = ofValue v) :
    (flattenEntries? entries).getD entries = ofEntries entries := by
  induction entries with
  | nil => rfl
  | cons entry rest ih =>
    have later := ih fun k v member => each k v (.tail _ member)
    rcases entry with ⟨k, _ | v⟩
    · rw [flattenEntries?, getD_amend, later, ofEntries, Option.getD_none]
    · rw [flattenEntries?, getD_amend, later, ofEntries, Option.getD_map (fun w => (k, some w)), each k v (.head _)]

/-- A value that is kept where it is unchanged is its identity, if its records have a field for each position. -/
theorem getD_flatten? (v : Value) (sized : ∀ r, v.Holds r → r.fields.length = r.layout.fields.length) :
    (flatten? v).getD v = ofValue v := by
  induction v using Value.induct with
  | scalar v plain => cases v <;> first | rfl | cases plain
  | record r ih =>
    have each := @getD_projectFields? r.layout.identifiable _ _
      (fun v member => ih v member fun inner held => sized inner (.field member held)) (sized r (.here r))
    rcases r with ⟨layout, fields⟩
    have whole : (project? ⟨layout, fields⟩).getD ⟨layout, fields⟩ = ofRecord ⟨layout, fields⟩ := by
      rw [project?, Option.getD_map (RecordOf.mk layout), each, ofRecord]
    rw [flatten?, Option.getD_map, whole, ofValue]
  | list items ih =>
    have each := getD_flattenItems? fun v member => ih v member fun r held => sized r (.item member held)
    rw [flatten?, ofValue, Option.getD_map, each]
  | map entries ih =>
    have each := getD_flattenEntries? fun k v member => ih k v member fun r held => sized r (.entry member held)
    rw [flatten?, ofValue, Option.getD_map, each]

end Identity

namespace Value

/-- Values whose records have accepted layouts are equal in identity to their identities. -/
theorem identity_equals (v : Value) (accepted : ∀ r, v.Holds r → r.layout.Accepted) :
    (Identity.ofValue v).equals .identity v = true := by
  induction v using Value.induct with
  | scalar v plain => cases v <;> simp_all [Value.equals, Value.isScalar, Identity.ofValue]
  | record r ih =>
    rw [Identity.ofValue, Value.equals, Identity.ofRecord_eq, recordEquals, beq_self_eq_true, Bool.true_and,
      fieldsEqual_iff (by decide)]
    intro i g info here described
    rw [Identity.ofFields_eq, getElem?_zipWith, described] at here
    obtain ⟨f, there, rfl⟩ : ∃ f, r.fields[i]? = some f ∧ Identity.ofField r.layout.identifiable f info = g := by
      cases there : r.fields[i]? <;> simp_all
    rw [RecordOf.field_name (accepted r (.here r)) described, there, Option.getD_some]
    by_cases skipped : r.layout.identifiable && !info.identifying
    · exact Or.inl (by simpa [Comparison.skips] using skipped)
    · refine Or.inr ?_
      have member := mem_of_getElem? there
      cases f with
      | value v =>
        rw [Identity.ofField, if_neg skipped]
        exact ih v member fun inner held => accepted inner (.field member held)
      | _ => simp [Identity.ofField, skipped, Field.equals, Field.value?]
  | list items ih =>
    rw [Identity.ofValue, Identity.ofItems_eq, Value.equals, itemsEqual_iff, forall₂_map_left_iff,
      forall₂_same]
    intro item member
    cases item with
    | none => exact .none
    | some v => exact .some (ih v member fun r held => accepted r (.item member held))
  | map entries ih =>
    rw [Identity.ofValue, Identity.ofEntries_eq, Value.equals, entriesEqual_iff, forall₂_map_left_iff,
      forall₂_same]
    rintro ⟨k, item⟩ member
    cases item with
    | none => exact .mk k .none
    | some v => exact .mk k (.some (ih k v member fun r held => accepted r (.entry member held)))

end Value

namespace RecordOf

theorem key_eq_of_identity {a b : Record} (same : a.identity = b.identity) : a.key = b.key := by
  have layouts : a.layout = b.layout := by
    have := congrArg layout same
    rwa [identity, identity, Identity.ofRecord_eq, Identity.ofRecord_eq] at this
  rw [key, key, identityText, identityText, typeName, typeName, same, layouts]

/-- Identities are a projection of records, where nested ones may be of other schemas: the identity of an identity is
itself, equals the record in identity and has its key. A record keeps the key through any number of writes to fields
that do not identify it, and to those of the entities that its identity refers to, at any depth. -/
theorem identity_projects {t : Record} (compiled : ∀ r, (Value.record t).Holds r →
      ∃ serial d s, Schema.compile serial d = .ok s ∧ s.type? r.typeName = some r.layout) :
    t.identity.identity = t.identity ∧ t.identity.equals .identity t = true ∧ t.identity.key = t.key ∧
      ∀ t' : Record, ReflTransGen Value.Amended (.record t) (.record t') → t'.key = t.key := by
  have idempotent : t.identity.identity = t.identity := by
    have := Identity.ofValue_ofValue (.record t)
    simp only [Identity.ofValue, Value.record.injEq] at this
    exact this
  refine ⟨idempotent, ?_, key_eq_of_identity idempotent, fun t' amended => key_eq_of_identity ?_⟩
  · have equal := Value.identity_equals (.record t) fun r held => by
      obtain ⟨_, _, _, compiled, type⟩ := compiled r held
      exact Schema.accepted_of_type? compiled type
    rwa [Identity.ofValue, Value.equals] at equal
  · have same := Identity.ofValue_run amended
    rwa [Identity.ofValue, Identity.ofValue, Value.record.injEq] at same

end RecordOf

namespace Seats

/-- Seats are identified by the members who hold them, and members by their handles. -/
def memberType : TypeDecl :=
  ⟨"Member", none, [⟨"handle", .text, 1, true, false, none, []⟩, ⟨"display", .text, 2, false, false, none, []⟩]⟩

def seatType : TypeDecl :=
  ⟨"Seat", none, [⟨"member", .record "Member", 1, true, false, none, []⟩, ⟨"row", .int, 2, false, false, none, []⟩]⟩

def declarations : Declarations := ⟨[memberType, seatType], [], []⟩

def memberLayout : Layout := declarations.layout 0 [] memberType []

def seatLayout : Layout := declarations.layout 0 [] seatType []

theorem compile_seats : Schema.compile 0 declarations = .ok ⟨0, [memberLayout, seatLayout], [], []⟩ := by
  decide +kernel

/-- The seat of Ada, with the name that they display and its row. -/
def seat (display : String) (row : Int64) : Record :=
  ⟨seatLayout, [.value (.record ⟨memberLayout, [.value (.text "ada"), .value (.text display)]⟩), .value (.int row)]⟩

/-- A seat holds itself and its member. -/
theorem compiled_seat {display : String} {row : Int64} (held : (Value.record (seat display row)).Holds r) :
    ∃ serial d s, Schema.compile serial d = .ok s ∧ s.type? r.typeName = some r.layout := by
  refine ⟨_, _, _, compile_seats, ?_⟩
  cases held with
  | here => rfl
  | field member deeper =>
    rcases mem_pair.mp member with same | same <;> cases same
    · cases deeper with
      | here => rfl
      | field member deeper => rcases mem_pair.mp member with same | same <;> cases same <;> cases deeper
    · cases deeper

theorem amended_display (display display' : String) (row : Int64) :
    (Value.record (seat display row)).Amended (.record (seat display' row)) :=
  .field (i := 0) rfl (fun _ => rfl) rfl (.state (i := 1) rfl rfl rfl (.value (.text display')))

theorem amended_row (display : String) (row row' : Int64) :
    (Value.record (seat display row)).Amended (.record (seat display row')) :=
  .state (i := 1) rfl rfl rfl (.value (.int row'))

end Seats

/-- A seat keeps its key when its member displays another name and it moves to another row. -/
theorem RecordOf.identity_projects_seat :
    (Seats.seat "Ada" 3).identity.identity = (Seats.seat "Ada" 3).identity ∧
      (Seats.seat "A. L." 7).key = (Seats.seat "Ada" 3).key :=
  have projects := identity_projects (t := Seats.seat "Ada" 3) fun _ held => Seats.compiled_seat held
  ⟨projects.1, projects.2.2.2 _ (.tail (.single (Seats.amended_display _ "A. L." 3)) (Seats.amended_row _ 3 7))⟩

end EntityGraph
