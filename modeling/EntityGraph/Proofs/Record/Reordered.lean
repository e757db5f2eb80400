import EntityGraph.Proofs.Record.Identity
import EntityGraph.Proofs.Schema.Reordered
import EntityGraph.Proofs.Wire.Receive

/-! Records do not show the order in which their fields were declared, neither on the wire nor in their identity. -/

namespace EntityGraph

open List

variable {r' : Record} {f g : Field Value} {items' : List (Option Value)}
  {entries entries' : List (String × Option Value)} {items : List (Option Value)}

/-- Values of two versions of a schema that hold the same. Records have the same type name and the same field under
every name: both are absent or null, or both hold values that correspond again. -/
inductive Value.Corresponds (s s' : Schema) : Value → Value → Prop where
  | bool (b : Bool) : Corresponds s s' (.bool b) (.bool b)
  | int (n : Int64) : Corresponds s s' (.int n) (.int n)
  | double (x : Double) : Corresponds s s' (.double x) (.double x)
  | text (t : String) : Corresponds s s' (.text t) (.text t)
  | enum (e : EnumValue) : Corresponds s s' (.enum e) (.enum e)
  | unknown (u : Unknown) : Corresponds s s' (.unknown u) (.unknown u)
  | record {r r' : SizedRecord} (known : s.type? r.layout.name = some r.layout)
    (known' : s'.type? r.layout.name = some r'.layout)
    (presence : ∀ name, Field.Rel (fun _ _ => True) (r.field name) (r'.field name))
    (values : ∀ name v v', r.field name = .value v → r'.field name = .value v' → Corresponds s s' v v') :
    Corresponds s s' (.record r) (.record r')
  | list {items items' : List (Option Value)} (presence : List.Forall₂ (Option.Rel fun _ _ => True) items items')
    (values : ∀ (k : Nat) v v', items[k]? = some (some v) → items'[k]? = some (some v') → Corresponds s s' v v') :
    Corresponds s s' (.list items) (.list items')
  | map {entries entries' : List (String × Option Value)}
    (presence : List.Forall₂ (Entries.Rel fun _ _ => True) entries entries')
    (values : ∀ (k : Nat) key v v', entries[k]? = some (key, some v) → entries'[k]? = some (key, some v') →
      Corresponds s s' v v') : Corresponds s s' (.map entries) (.map entries')

/-- Records of two versions of a schema with the same type name and the same field under every name. -/
def RecordOf.Corresponds (s s' : Schema) (r r' : Record) : Prop :=
  Value.Corresponds s s' (.record r) (.record r')

section Presence

variable {related : Value → Value → Prop}

theorem Field.Rel.of_presence (presence : Field.Rel (fun _ _ => True) f g)
    (values : ∀ v w, f = .value v → g = .value w → related v w) : Field.Rel related f g := by
  cases presence with
  | absent => exact .absent
  | null => exact .null
  | value _ => exact .value (values _ _ rfl rfl)

theorem Field.Rel.presence (same : Field.Rel related f g) : Field.Rel (fun _ _ => True) f g := by
  cases same with
  | absent => exact .absent
  | null => exact .null
  | value _ => exact .value trivial

theorem forall₂_items_of_presence (presence : List.Forall₂ (Option.Rel fun _ _ => True) items items')
    (values : ∀ (k : Nat) v v', items[k]? = some (some v) → items'[k]? = some (some v') → related v v') :
    List.Forall₂ (Option.Rel related) items items' := by
  refine forall₂_of_getElem? presence.length_eq fun k a b here there => ?_
  obtain ⟨a', here', same⟩ := exists_of_forall₂ presence there
  rw [here] at here'
  cases here'
  cases same with
  | none => exact .none
  | some _ => exact .some (values k _ _ here there)

theorem forall₂_entries_of_presence (presence : List.Forall₂ (Entries.Rel fun _ _ => True) entries entries')
    (values : ∀ (k : Nat) key v v', entries[k]? = some (key, some v) → entries'[k]? = some (key, some v') → related v
      v') : List.Forall₂ (Entries.Rel related) entries entries' := by
  refine forall₂_of_getElem? presence.length_eq fun k a b here there => ?_
  obtain ⟨a', here', same⟩ := exists_of_forall₂ presence there
  rw [here] at here'
  cases here'
  rcases same with ⟨key, same⟩
  cases same with
  | none => exact .mk key .none
  | some _ => exact .mk key (.some (values k key _ _ here there))

end Presence

namespace Wire

section Collection

variable {site : Site} {k : Kind} {depth : Nat}

/-- Lists whose elements are written alike are written alike. -/
theorem items_congr
    (each : List.Forall₂ (Option.Rel fun v w => value site false v k depth = value site false w k depth) items items')
    (out : List UInt8) : Wire.items site items k depth out = Wire.items site items' k depth out := by
  induction each generalizing out with
  | nil => rfl
  | cons first _ ih =>
    cases first with
    | none => rw [Wire.items, Wire.items, ih]
    | some same =>
      rw [Wire.items, Wire.items, same]
      simp only [ih]

/-- Maps whose values are written alike are written alike. -/
theorem entries_congr (each : List.Forall₂ (Entries.Rel fun v w => value site false v k depth = value site false w k
      depth) entries entries') (out : List UInt8) :
    Wire.entries site entries k depth out = Wire.entries site entries' k depth out := by
  induction each generalizing out with
  | nil => rfl
  | cons first _ ih =>
    rcases first with ⟨key, first⟩
    cases first with
    | none => rw [Wire.entries, Wire.entries, ih]
    | some same =>
      rw [Wire.entries, Wire.entries, same]
      simp only [ih]

end Collection

theorem fieldPart_congr {site : Site} {kind : Kind} {depth : Nat}
    (related : Field.Rel (fun v w => value site true v kind depth = value site true w kind depth) f g) :
    fieldPart site kind depth f = fieldPart site kind depth g := by
  cases related with
  | absent => rfl
  | null => rfl
  | value same => rw [fieldPart, fieldPart, same]

end Wire

namespace Identity

/-- What a declared field of a record adds to the document of its identity. -/
def memberOf (identifiable : Bool) (r : Record) (d : FieldDecl) : Option (String × Json) :=
  (part? identifiable ⟨d, false, false⟩ (r.field d.name)).map fun j => (d.name, j)

/-- The members are added one after the other. -/
theorem fieldMembers_eq_foldl (identifiable : Bool) (fields : List (Field Value)) (infos : List FieldInfo)
    (before : List (String × Json)) : Emit.fieldMembers true (ofFields identifiable fields infos) infos before =
      ((infos.zip fields).filterMap fun e => (part? identifiable e.1 e.2).map fun j => (e.1.name, j)).foldl
        (fun members e => Entries.insert e.1 e.2 members) before := by
  induction fields generalizing infos before with
  | nil => cases infos <;> simp [ofFields, Emit.fieldMembers]
  | cons f rest ih =>
    cases infos with
    | nil => cases f <;> simp [ofFields]
    | cons info infos =>
      rw [fieldMembers_ofFields, ih, zip_cons_cons, filterMap_cons]
      cases part? identifiable info f <;> rfl

/-- Each position of a record has the field of its name. -/
theorem zip_fields {r : SizedRecord} (accepted : r.layout.Accepted) :
    r.layout.fields.zip r.fields = r.layout.fields.map fun info => (info, r.field info.name) := by
  refine ext_getElem? fun i => ?_
  rw [getElem?_map]
  cases found : r.layout.fields[i]? with
  | none =>
    -- Behind the last field there is none in either list.
    refine getElem?_eq_none ?_
    rw [length_zip, r.sized, Nat.min_self]
    exact List.getElem?_eq_none_iff.mp found
  | some info =>
    have inside := r.lt_length found
    rw [Option.map_some, RecordOf.field_name accepted found, getElem?_eq_getElem inside, Option.getD_some]
    exact getElem?_zip_eq_some.mpr ⟨found, getElem?_eq_getElem inside⟩

/-- The document of an identity has a member for each declared field that counts, whatever the order of the fields. -/
theorem fieldMembers_eq {r : SizedRecord} (accepted : r.layout.Accepted) (identifiable : Bool)
    (before : List (String × Json)) :
    Emit.fieldMembers true (ofFields identifiable r.fields r.layout.fields) r.layout.fields before =
      ((r.layout.fields.map FieldInfo.toFieldDecl).filterMap (memberOf identifiable r)).foldl
        (fun members e => Entries.insert e.1 e.2 members) before := by
  rw [fieldMembers_eq_foldl, zip_fields accepted, filterMap_map, filterMap_map]
  rfl

/-- Records whose members are the same under every name have the same document. -/
theorem fieldMembers_reordered {r r' : SizedRecord} (accepted : r.layout.Accepted) (accepted' : r'.layout.Accepted)
    (layouts : r.layout.Reordered r'.layout) (identifiable : Bool)
    (same : ∀ d, memberOf identifiable r d = memberOf identifiable r' d) (before : List (String × Json)) :
    Emit.fieldMembers true (ofFields identifiable r.fields r.layout.fields) r.layout.fields before =
      Emit.fieldMembers true (ofFields identifiable r'.fields r'.layout.fields) r'.layout.fields before := by
  rw [fieldMembers_eq accepted, fieldMembers_eq accepted', ← funext same]
  -- Insertions of a permuted list give the same result if any two of them commute.
  refine (layouts.fields.filterMap _).foldl_eq' (fun x first y second members => ?_) before
  -- Two members have two names, unless they are one.
  obtain ⟨d, declared, member⟩ := mem_filterMap.mp first
  obtain ⟨d', declared', member'⟩ := mem_filterMap.mp second
  obtain ⟨j, part, rfl⟩ := Option.map_eq_some_iff.mp member
  obtain ⟨j', part', rfl⟩ := Option.map_eq_some_iff.mp member'
  by_cases name : d.name = d'.name
  · have names : ((r.layout.fields.map FieldInfo.toFieldDecl).map fun d => d.name).Nodup := by
      rw [map_map]
      exact accepted.names
    have one : d = d' := inj_on_of_nodup_map names declared declared' name
    subst one
    rw [part] at part'
    cases part'
    rfl
  · exact (Entries.insert_comm name j j' members).symm

theorem memberOf_eq {r : Record} {identifiable : Bool} {d : FieldDecl}
    (related : Field.Rel SameDocument (r.field d.name) (r'.field d.name)) :
    memberOf identifiable r d = memberOf identifiable r' d := by
  unfold memberOf
  generalize r.field d.name = f, r'.field d.name = g at related
  cases related with
  | absent => rfl
  | null => rfl
  | value same => rw [part?, part?, same]

end Identity

section Reordered

variable {s s' : Schema} (accepted : ∀ {name l}, s.type? name = some l → l.Accepted)
  (accepted' : ∀ {name l}, s'.type? name = some l → l.Accepted)
  (reordered : ∀ {name l l'}, s.type? name = some l → s'.type? name = some l' → l.Reordered l') {v w : Value}

/-- Records are written alike if their fields are under every name. -/
theorem Wire.record_reordered {r r' : SizedRecord} {depth : Nat} (isAccepted : r.layout.Accepted)
    (isAccepted' : r'.layout.Accepted) (layouts : r.layout.Reordered r'.layout)
    (fields : ∀ name site kind, Field.Rel (fun v w => Wire.value site true v kind depth = Wire.value site true w kind
      depth) (r.field name) (r'.field name)) : Wire.record r depth = Wire.record r' depth := by
  refine record_congr ((layouts.aligned isAccepted isAccepted').imp fun i j same => ?_)
  obtain ⟨f, g, found, found', declared⟩ := same
  -- Both positions have the field of the same name.
  have name : f.name = g.name := congrArg FieldDecl.name declared
  have kind : f.kind = g.kind := congrArg FieldDecl.kind declared
  rw [partAt_eq found, partAt_eq found', ← RecordOf.field_name isAccepted found,
    ← RecordOf.field_name isAccepted' found', layouts.name, name, kind]
  exact fieldPart_congr (fields g.name _ _)

include accepted accepted' reordered

/-- Values that correspond are written alike, and refused alike. -/
theorem Value.Corresponds.wire (corresponds : v.Corresponds s s' w) :
    ∀ (site : Wire.Site) (flagged : Bool) (kind : Kind) (depth : Nat),
      Wire.value site flagged v kind depth = Wire.value site flagged w kind depth := by
  induction corresponds with
  | bool => exact fun _ _ _ _ => rfl
  | int => exact fun _ _ _ _ => rfl
  | double => exact fun _ _ _ _ => rfl
  | text => exact fun _ _ _ _ => rfl
  | enum => exact fun _ _ _ _ => rfl
  | unknown => exact fun _ _ _ _ => rfl
  | @record r r' known known' presence _ ih =>
    intro site flagged kind depth
    have layouts := reordered known known'
    -- Each name has the same field in both records, and the layouts put the names in one order on the wire.
    have body : ∀ depth, Wire.record r depth = Wire.record r' depth := fun depth =>
      Wire.record_reordered (accepted known) (accepted' known') layouts fun name site kind =>
        (presence name).of_presence fun v w here there => ih name v w here there site true kind depth
    cases kind <;> simp only [Wire.value, body, layouts.name]
  | @list items items' presence _ ih =>
    intro site flagged kind depth
    cases kind with
    | list k =>
      -- Elements are there in the same places, and each is written alike.
      have each := forall₂_items_of_presence presence fun i v w here there =>
        ih i v w here there site false k (if flagged then depth else depth + 1)
      rw [Wire.value, Wire.value, isEmpty_of_forall₂ each, each.length_eq, isSome_of_forall₂ each,
        Wire.items_congr each]
    | _ => rfl
  | @map entries entries' presence _ ih =>
    intro site flagged kind depth
    cases kind with
    | map k =>
      have each := forall₂_entries_of_presence presence fun i key v w here there =>
        ih i key v w here there site false k (if flagged then depth else depth + 1)
      rw [Wire.value, Wire.value, isEmpty_of_forall₂ each, each.length_eq, isSome_of_forall₂_entries each,
        Wire.entries_congr each]
    | _ => rfl

/-- Values that correspond have the same document of their identity. -/
theorem Value.Corresponds.document (corresponds : v.Corresponds s s' w) : Identity.SameDocument v w := by
  induction corresponds with
  | bool => exact fun _ => rfl
  | int => exact fun _ => rfl
  | double => exact fun _ => rfl
  | text => exact fun _ => rfl
  | enum => exact fun _ => rfl
  | unknown => exact fun _ => rfl
  | @record r r' known known' presence _ ih =>
    intro kind
    have layouts := reordered known known'
    -- Members are inserted by name, whatever the order in which they come.
    have members := fun before => Identity.fieldMembers_reordered (accepted known) (accepted' known') layouts
      r.layout.identifiable (fun d => Identity.memberOf_eq ((presence d.name).of_presence (ih d.name))) before
    simp only [Identity.ofValue, Identity.ofRecord_eq, Emit.value_record]
    rw [members, layouts.identifiable, layouts.name]
  | list presence _ ih =>
    intro kind
    simp only [Identity.ofValue, Emit.value]
    rw [Identity.itemDocuments_eq (forall₂_items_of_presence presence ih)]
  | map presence _ ih =>
    intro kind
    simp only [Identity.ofValue, Emit.value]
    rw [Identity.entryMembers_eq (forall₂_entries_of_presence presence ih)]

/-- Records that correspond are written alike. -/
theorem RecordOf.Corresponds.encode {r : Record} (corresponds : r.Corresponds s s' r') :
    Wire.encode r = Wire.encode r' := by
  cases corresponds with
  | record known known' presence values =>
    refine Wire.record_reordered (accepted known) (accepted' known') (reordered known known') ?_
    intro name site kind
    exact (presence name).of_presence fun v w here there =>
      (values name v w here there).wire accepted accepted' reordered site true kind 0

/-- Records that correspond have the same text to be hashed. -/
theorem RecordOf.Corresponds.identityText {r : Record} (corresponds : r.Corresponds s s' r') :
    r.identityText = r'.identityText := by
  -- A record by itself has the document that it has in a field of its own type.
  have alone : ∀ r : Record,
      r.identity.toJson true = Emit.value true (Identity.ofValue (.record r)) (.record r.layout.name) := by
    rintro ⟨layout, fields⟩
    rfl
  have document := Value.Corresponds.document accepted accepted' reordered corresponds
  have name : r.layout.name = r'.layout.name := by
    cases corresponds with
    | record known known' => exact (reordered known known').name
  rw [RecordOf.identityText, RecordOf.identityText, alone, alone, document, RecordOf.typeName, RecordOf.typeName, name]

end Reordered

/-- Whatever order fields, types, enumerations and open types are declared in, records with the same fields under the
same names are written as the same bytes, or refused with the same error, and have the same key. -/
theorem RecordOf.encode_key_reordered {serial serial' : Nat} {declarations declarations' : Declarations} {s s' : Schema}
    (compiled : Schema.compile serial declarations = .ok s) (compiled' : Schema.compile serial' declarations' = .ok s')
    (reordered : declarations.Reordered declarations') {r r' : Record} (corresponds : r.Corresponds s s' r') :
    Wire.encode r = Wire.encode r' ∧ r.key = r'.key := by
  have accepted : ∀ {name l}, s.type? name = some l → l.Accepted := Schema.accepted_of_type? compiled
  have accepted' : ∀ {name l}, s'.type? name = some l → l.Accepted := Schema.accepted_of_type? compiled'
  have layouts : ∀ {name l l'}, s.type? name = some l → s'.type? name = some l' → l.Reordered l' :=
    reordered.layout compiled compiled'
  refine ⟨corresponds.encode accepted accepted' layouts, ?_⟩
  rw [RecordOf.key, RecordOf.key, corresponds.identityText accepted accepted' layouts]

namespace Moved

/-- A layout of two fields, which stand on the wire in this order or in the other one. -/
def layout (serial : Nat) (name : String) (f g : FieldDecl) (wireOrder : List Nat) : Layout :=
  ⟨serial, name, none, [⟨f, false, false⟩, ⟨g, false, false⟩], wireOrder, [], [], [], f.identifying || g.identifying,
    false, false⟩

theorem field_layout (serial : Nat) (name : String) (f g : FieldDecl) (wireOrder : List Nat) (a b : Field Value)
    (key : String) : RecordOf.field ⟨layout serial name f g wireOrder, [a, b]⟩ key =
      if f.name = key then a else if g.name = key then b else .absent := by
  unfold RecordOf.field Layout.indexOf? layout
  by_cases first : f.name = key
  · simp [findIdx?_cons, first]
  · by_cases second : g.name = key <;> simp [findIdx?_cons, first, second]

/-- Records whose two fields have changed places correspond. -/
theorem corresponds_swap {s s' : Schema} {serial serial' : Nat} {name : String} {f g : FieldDecl}
    {wireOrder wireOrder' : List Nat} {a b a' b' : Field Value} (apart : f.name ≠ g.name)
    (known : s.type? name = some (layout serial name f g wireOrder))
    (known' : s'.type? name = some (layout serial' name g f wireOrder'))
    (first : Field.Rel (Value.Corresponds s s') a a') (second : Field.Rel (Value.Corresponds s s') b b') :
    RecordOf.Corresponds s s' ⟨layout serial name f g wireOrder, [a, b]⟩
      ⟨layout serial' name g f wireOrder', [b', a']⟩ := by
  -- Under each name both records have the first fields, the second ones, or none.
  have each : ∀ key, Field.Rel (Value.Corresponds s s')
      (RecordOf.field ⟨layout serial name f g wireOrder, [a, b]⟩ key)
      (RecordOf.field ⟨layout serial' name g f wireOrder', [b', a']⟩ key) := by
    intro key
    rw [field_layout, field_layout]
    by_cases isFirst : f.name = key
    · have notSecond : g.name ≠ key := fun same => apart (isFirst.trans same.symm)
      rw [if_pos isFirst, if_neg notSecond, if_pos isFirst]
      exact first
    · rw [if_neg isFirst, if_neg isFirst]
      split
      · exact second
      · exact .absent
  refine @Value.Corresponds.record s s' ⟨_, rfl⟩ ⟨_, rfl⟩ known known' (fun key => (each key).presence) ?_
  intro key v v' here there
  have related := each key
  rw [here, there] at related
  cases related
  assumption

/-- The town of a place, and its street. -/
def town : FieldDecl := ⟨"town", .text, 1, false, false, none, []⟩
def street : FieldDecl := ⟨"street", .text, 2, false, false, none, []⟩

/-- The home of a person, and the name that they are known by. -/
def home : FieldDecl := ⟨"home", .record "Place", 1, false, false, none, []⟩
def called : FieldDecl := ⟨"called", .text, 2, true, false, none, []⟩

def declarations : Declarations :=
  ⟨[⟨"Place", none, [town, street]⟩, ⟨"Person", none, [home, called]⟩], [], []⟩

/-- The same types in another order, with their fields in another order. -/
def declarations' : Declarations :=
  ⟨[⟨"Person", none, [called, home]⟩, ⟨"Place", none, [street, town]⟩], [], []⟩

def schema : Schema :=
  ⟨0, [layout 0 "Place" town street [0, 1], layout 0 "Person" home called [0, 1]], [], []⟩

def schema' : Schema :=
  ⟨1, [layout 1 "Person" called home [1, 0], layout 1 "Place" street town [1, 0]], [], []⟩

theorem compile_declarations : Schema.compile 0 declarations = .ok schema := by decide +kernel

theorem compile_declarations' : Schema.compile 1 declarations' = .ok schema' := by decide +kernel

theorem reordered : declarations.Reordered declarations' where
  types := ⟨_, .swap _ _ _, .cons ⟨rfl, rfl, .swap _ _ _⟩ (.cons ⟨rfl, rfl, .swap _ _ _⟩ .nil)⟩
  enums := .nil
  opens := .nil

/-- Someone who lives in a town, in a street without a name. -/
def resident : Record :=
  ⟨layout 0 "Person" home called [0, 1], [.value (.record ⟨layout 0 "Place" town street [0, 1],
    [.value (.text "Rome"), .null]⟩), .value (.text "Ada")]⟩

def resident' : Record :=
  ⟨layout 1 "Person" called home [1, 0], [.value (.text "Ada"), .value (.record ⟨layout 1 "Place" street town [1, 0],
    [.null, .value (.text "Rome")]⟩)]⟩

theorem corresponds_resident : resident.Corresponds schema schema' resident' := by
  have place : RecordOf.Corresponds schema schema'
      ⟨layout 0 "Place" town street [0, 1], [.value (.text "Rome"), .null]⟩
      ⟨layout 1 "Place" street town [1, 0], [.null, .value (.text "Rome")]⟩ :=
    corresponds_swap (by decide) (by decide +kernel) (by decide +kernel) (.value (.text "Rome")) .null
  exact corresponds_swap (by decide) (by decide +kernel) (by decide +kernel) (.value place) (.value (.text "Ada"))

/-- The resident is written as the same bytes, and known by the same key. -/
theorem encode_key_reordered_resident : resident.Corresponds schema schema' resident' ∧
    Wire.encode resident = Wire.encode resident' ∧ resident.key = resident'.key :=
  ⟨corresponds_resident,
    RecordOf.encode_key_reordered compile_declarations compile_declarations' reordered corresponds_resident⟩

end Moved

end EntityGraph
