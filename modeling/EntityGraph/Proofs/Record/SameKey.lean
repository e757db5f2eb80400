import EntityGraph.Proofs.Graph.Reachable
import EntityGraph.Proofs.Record.Identity
import EntityGraph.Proofs.Record.IdentityText
import EntityGraph.Proofs.Record.State

/-! Records that are equal in identity, and their keys.

A comparison takes null for absent and looks at nothing but the names of unknown records. The text that is hashed tells
both apart, so that records of one identity have one key exactly if they are alike in these two respects. -/

namespace EntityGraph

open List

variable {f g : Field Value} {entries others : List (String × Option Value)} {before : List (String × Json)}
  {fields : List (Field Value)} {infos : List FieldInfo} {r : Record} {key : String} {mode : Comparison} {j : Json}

mutual

/-- As far as their identities go, the values declare the same fields, and their unknown records have the same
members. -/
def Value.Alike : Value → Value → Prop
  | .record a, .record b => recordAlike a b
  | .unknown u, .unknown w =>
    Entries.erase Emit.typeNameKey (Emit.unknownMembers u.body) =
      Entries.erase Emit.typeNameKey (Emit.unknownMembers w.body)
  | .list as, .list bs => itemsAlike as bs
  | .map as, .map bs => entriesAlike as bs
  | _, _ => True
termination_by structural v => v

/-- The records declare the same fields, among those that identify them. -/
def recordAlike : RecordOf Value → RecordOf Value → Prop
  | ⟨layout, fields⟩, other => fieldsAlike layout.identifiable fields layout.fields other.fields
termination_by structural r => r

/-- Each of the fields is declared if and only if the other one is. Where some fields identify a record the others do
not count. -/
def fieldsAlike (identifiable : Bool) : List (Field Value) → List FieldInfo → List (Field Value) → Prop
  | .value v :: fields, info :: infos, g :: others =>
    ((identifiable && !info.identifying) = true ∨ ∀ w, g = .value w → v.Alike w) ∧
      fieldsAlike identifiable fields infos others
  | .null :: fields, info :: infos, g :: others =>
    ((identifiable && !info.identifying) = true ∨ g.isDeclared = true) ∧ fieldsAlike identifiable fields infos others
  | .absent :: fields, info :: infos, g :: others =>
    ((identifiable && !info.identifying) = true ∨ g.isDeclared = false) ∧ fieldsAlike identifiable fields infos others
  | _, _, _ => True
termination_by structural fields => fields

/-- The elements are alike. -/
def itemsAlike : List (Option Value) → List (Option Value) → Prop
  | some v :: rest, some w :: others => v.Alike w ∧ itemsAlike rest others
  | none :: rest, _ :: others => itemsAlike rest others
  | _, _ => True
termination_by structural items => items

/-- The values of the entries are alike. -/
def entriesAlike : List (String × Option Value) → List (String × Option Value) → Prop
  | (_, some v) :: rest, (_, some w) :: others => v.Alike w ∧ entriesAlike rest others
  | (_, none) :: rest, _ :: others => entriesAlike rest others
  | _, _ => True
termination_by structural entries => entries

end

/-- The second field is declared if and only if the first one is, and a value in it is like that of the first one. -/
def Field.Alike : Field Value → Field Value → Prop
  | .value v, g => ∀ w, g = .value w → v.Alike w
  | .null, g => g.isDeclared = true
  | .absent, g => g.isDeclared = false

theorem fieldsAlike_iff {identifiable : Bool} {others : List (Field Value)} :
    fieldsAlike identifiable fields infos others ↔
      ∀ (i : Nat) (f g : Field Value) (info : FieldInfo), fields[i]? = some f → others[i]? = some g →
        infos[i]? = some info → (identifiable && !info.identifying) = true ∨ f.Alike g := by
  induction fields generalizing infos others with
  | nil => simp [fieldsAlike]
  | cons f rest ih =>
    cases infos with
    | nil => cases f <;> simp [fieldsAlike]
    | cons info infos =>
      cases others with
      | nil => cases f <;> simp [fieldsAlike]
      | cons g others =>
        have first : fieldsAlike identifiable (f :: rest) (info :: infos) (g :: others) ↔
            ((identifiable && !info.identifying) = true ∨ f.Alike g) ∧ fieldsAlike identifiable rest infos others := by
          cases f <;> exact Iff.rfl
        rw [first, ih]
        constructor
        · rintro ⟨first, later⟩ (_ | i) f g info here there described
          · cases here
            cases there
            cases described
            exact first
          · exact later i f g info here there described
        · exact fun all => ⟨all 0 f g info rfl rfl rfl, fun i => all (i + 1)⟩

/-- The records declare the same fields, among those that identify them, and have the same unknown records there. -/
def RecordOf.Alike (a b : Record) : Prop :=
  recordAlike a b

/-- The keys of all maps in a value stand in order. -/
def keysInOrder : Requirement Unit Bool where
  atMap entries _ values := decide ((entries.map Prod.fst).Pairwise (· < ·)) && values ()
  __ := Requirement.plain true and

/-- The keys of all maps in the value stand in order. -/
def Value.inOrder (v : Value) : Bool :=
  keysInOrder.value v ()

/-- So do those of the maps in the record. -/
def recordInOrder (r : Record) : Bool :=
  keysInOrder.record r ()

theorem keysInOrder_conjoins : keysInOrder.Conjoins (· = true) :=
  ⟨rfl, fun a b => Bool.and_eq_true a b ▸ Iff.rfl⟩

theorem inOrder_of_recordInOrder (inOrder : recordInOrder r = true) {v : Value}
    (member : .value v ∈ r.fields) : v.inOrder = true := by
  rcases r with ⟨layout, fields⟩
  obtain ⟨i, here⟩ := mem_iff_getElem?.mp member
  exact keysInOrder_conjoins.fields_iff.mp inOrder i v here

namespace Emit

/-- The member for the type name is the same, so the others decide. -/
theorem insert_typeNameKey_inj {name : String} {body body' : UnknownBody} :
    Entries.insert typeNameKey (.string name) (unknownMembers body) =
        Entries.insert typeNameKey (.string name) (unknownMembers body') ↔
      Entries.erase typeNameKey (unknownMembers body) = Entries.erase typeNameKey (unknownMembers body') := by
  constructor
  · intro same
    -- Without the member for the type name what is left of both sides is the same.
    have erased := congrArg (Entries.erase typeNameKey) same
    rwa [Entries.erase_insert, Entries.erase_insert] at erased
  · intro same
    rw [← Entries.insert_erase (unknownMembers_spelled body).1, same,
      Entries.insert_erase (unknownMembers_spelled body').1]

theorem find?_tag_ne_null (kind : Kind) (name key : String) : Entries.find? key (tag kind name) ≠ some .null := by
  unfold tag
  -- A tag is a name in an open position, and nothing elsewhere.
  split
  · rw [Entries.find?, lookup_cons]
    split
    · simp
    · simp
  · simp [Entries.find?]

/-- Members that are added under other keys leave those that are there alone. -/
theorem find?_entryMembers_of_ne (flag : Bool) (entries : List (String × Option Value)) (kind : Kind)
    (before : List (String × Json)) (apart : ∀ e ∈ entries, e.1 ≠ key) :
    Entries.find? key (entryMembers flag entries kind before) = Entries.find? key before := by
  induction entries generalizing before with
  | nil => rfl
  | cons e rest ih =>
    -- An entry without a value adds null, which is under another key as well.
    rcases e with ⟨k, - | v⟩
    · rw [entryMembers, ih _ fun e member => apart e (.tail _ member)]
      exact Entries.find?_insert_of_ne (Ne.symm (apart _ mem_cons_self)) _ before
    · rw [entryMembers, ih _ fun e member => apart e (.tail _ member)]
      exact Entries.find?_insert_of_ne (Ne.symm (apart _ mem_cons_self)) _ before

end Emit

theorem Field.isSome_value?_of_equals (equal : f.equals mode g = true) : f.value?.isSome = g.value?.isSome := by
  cases f <;> cases g <;> simp_all [Field.equals, Field.value?]

namespace Identity

section part

variable {identifiable : Bool} {info : FieldInfo}

/-- Where one of two fields without different values adds nothing, the other one adds nothing but null. -/
theorem eq_null_of_part? (both : (identifiable && !info.identifying) = false → f.value?.isSome = g.value?.isSome)
    (without : part? identifiable info f = none) (adds : part? identifiable info g = some j) : j = .null := by
  cases counts : identifiable && !info.identifying with
  -- A field that does not count adds nothing.
  | true =>
    rw [part?_of_skipped counts] at adds
    cases adds
  | false =>
    -- Of those that do only an absent one adds nothing, and the other has no value either.
    have both := both counts
    cases f with
    | absent =>
      cases g with
      | absent => rw [part?_absent] at adds; cases adds
      | null => rw [part?_null counts] at adds; exact (Option.some.inj adds).symm
      | value w => cases both
    | null => rw [part?_null counts] at without; cases without
    | value v => rw [part?_value counts] at without; cases without

/-- Fields of equal identity add the same if they are alike or do not count. -/
theorem part?_eq_iff (equal : (identifiable && !info.identifying) = false → f.equals .identity g = true)
    (documents : ∀ v w, f = .value v → g = .value w → v.equals .identity w = true →
      (Emit.value true (ofValue v) info.kind = Emit.value true (ofValue w) info.kind ↔ v.Alike w)) :
    part? identifiable info f = part? identifiable info g ↔
      (identifiable && !info.identifying) = true ∨ f.Alike g := by
  cases counts : identifiable && !info.identifying with
  | true => simp [part?_of_skipped counts]
  | false =>
    specialize equal counts
    cases f <;> cases g <;> first | cases equal | skip
    case value.value v w =>
      rw [part?_value counts, part?_value counts, Option.some.injEq, documents v w rfl rfl equal]
      simp [Field.Alike]
    -- Without values it is a matter of being declared.
    all_goals simp [part?_absent, part?_null counts, Field.Alike, Field.isDeclared, Field.isAbsent]

end part

/-- Documents of fields that are equal in identity are the same if the fields add the same at each position. -/
theorem fieldMembers_eq_iff {identifiable : Bool} {others : List (Field Value)}
    (length : fields.length = others.length) (names : (infos.map fun f => f.name).Nodup)
    (unset : ∀ info ∈ infos, Entries.find? info.name before ≠ some .null)
    (equal : ∀ (i : Nat) (f g : Field Value) (info : FieldInfo), fields[i]? = some f → others[i]? = some g →
      infos[i]? = some info → (identifiable && !info.identifying) = true ∨ f.equals .identity g = true) :
    Emit.fieldMembers true (ofFields identifiable fields infos) infos before =
        Emit.fieldMembers true (ofFields identifiable others infos) infos before ↔
      ∀ (i : Nat) (f g : Field Value) (info : FieldInfo), fields[i]? = some f → others[i]? = some g →
        infos[i]? = some info → part? identifiable info f = part? identifiable info g := by
  constructor
  · intro same i f g info here there described
    -- No other field has this name, so that the member tells what the field has added.
    have read := congrArg (Entries.find? info.name) same
    rw [Emit.find?_fieldMembers names described, Emit.find?_fieldMembers names described, bind_ofFields described,
      bind_ofFields described, here, there, Option.bind_some, Option.bind_some] at read
    have unset := unset info (mem_of_getElem? described)
    have both (counts : (identifiable && !info.identifying) = false) : f.value?.isSome = g.value?.isSome :=
      Field.isSome_value?_of_equals ((equal i f g info here there described).resolve_left (by simp [counts]))
    cases left : part? identifiable info f with
    | none =>
      cases right : part? identifiable info g with
      | none => rfl
      | some j =>
        -- Null would have been there before, under a name that was not set to it.
        rw [left, right, eq_null_of_part? both left right] at read
        exact absurd read unset
    | some i =>
      cases right : part? identifiable info g with
      | none =>
        rw [left, right, eq_null_of_part? (fun counts => (both counts).symm) right left] at read
        exact absurd read.symm unset
      | some j => simpa [left, right] using read
  · intro same
    refine fieldMembers_congr length fun i info described => ?_
    cases here : fields[i]? with
    | none =>
      rw [List.getElem?_eq_none_iff, length, ← List.getElem?_eq_none_iff] at here
      rw [here]
    | some f =>
      have inside := (List.getElem?_eq_some_iff.mp here).1
      rw [length] at inside
      rw [getElem?_eq_getElem inside]
      exact same i f _ info here (getElem?_eq_getElem inside) described

theorem keys_ofEntries (entries : List (String × Option Value)) :
    (ofEntries entries).map Prod.fst = entries.map Prod.fst := by
  induction entries with
  | nil => rfl
  | cons e rest ih => rcases e with ⟨k, - | v⟩ <;> simp [ofEntries, ih]

theorem apart_ofEntries (first : ∀ k ∈ entries.map Prod.fst, key < k) : ∀ e ∈ ofEntries entries, e.1 ≠ key := by
  intro e member same
  have inside : e.1 ∈ entries.map Prod.fst := keys_ofEntries entries ▸ mem_map_of_mem member
  exact String.lt_irrefl key (same ▸ first e.1 inside)

end Identity

/-- Equal maps have the same keys. -/
theorem keys_of_entriesEqual (equal : entriesEqual mode entries others = true) :
    entries.map Prod.fst = others.map Prod.fst := by
  induction entries generalizing others with
  | nil => cases others <;> simp_all [entriesEqual]
  | cons e rest ih =>
    -- Entries that differ in shape are not equal, which leaves two pairs of them.
    rcases e with ⟨k, - | v⟩ <;> rcases others with - | ⟨⟨l, - | w⟩, others⟩ <;>
      simp only [entriesEqual, Bool.and_eq_true, beq_iff_eq, Bool.false_eq_true] at equal
    · rw [map_cons, map_cons, equal.1, ih equal.2]
    · rw [map_cons, map_cons, equal.1.1, ih equal.2]

section alike

variable {s : Schema} {a b : Record}

/-- Documents of maps that go on with one key are the same if they have the same under it and the rest is the same. -/
theorem Emit.entryMembers_insert_inj {flag : Bool} {i : Json} {kind : Kind}
    {rest : List (String × Option Value)} (apart : ∀ e ∈ rest, e.1 ≠ key) (apart' : ∀ e ∈ others, e.1 ≠ key) :
    entryMembers flag rest kind (Entries.insert key i before) =
        entryMembers flag others kind (Entries.insert key j before) ↔
      i = j ∧ entryMembers flag rest kind (Entries.insert key i before) =
        entryMembers flag others kind (Entries.insert key i before) := by
  constructor
  · intro same
    -- No later entry has the key, so that both documents have under it what was put there.
    have read := congrArg (Entries.find? key) same
    rw [find?_entryMembers_of_ne _ _ _ _ apart, find?_entryMembers_of_ne _ _ _ _ apart', Entries.find?_insert_self,
      Entries.find?_insert_self] at read
    cases Option.some.inj read
    exact ⟨rfl, same⟩
  · rintro ⟨rfl, same⟩
    exact same

/-- The document of the value is that of another one, equal in identity, if they are alike. -/
def Value.Decides (s : Schema) (v : Value) : Prop :=
  ∀ (w : Value) (kind : Kind), s.owns v = true → s.owns w = true → v.inOrder = true → v.equals .identity w = true →
    (Emit.value true (Identity.ofValue v) kind = Emit.value true (Identity.ofValue w) kind ↔ v.Alike w)

theorem recordMembers_eq_iff (accepted : s.Accepted) (each : ∀ v, .value v ∈ a.fields → v.Decides s)
    (own : s.ownsRecord a = true) (own' : s.ownsRecord b = true) (inOrder : recordInOrder a = true)
    (equal : recordEquals .identity a b = true)
    (unset : ∀ info ∈ a.layout.fields, Entries.find? info.name before ≠ some .null) :
    Emit.fieldMembers true (Identity.ofRecord a).fields (Identity.ofRecord a).layout.fields before =
      Emit.fieldMembers true (Identity.ofRecord b).fields (Identity.ofRecord b).layout.fields before ↔
        recordAlike a b := by
  rcases a with ⟨layout, fields⟩
  rcases b with ⟨layout', others⟩
  obtain ⟨layouts, equal⟩ := (recordEquals_iff accepted (by decide) own own').mp equal
  obtain ⟨type, length, owned⟩ := Schema.ownsRecord_iff.mp own
  obtain ⟨-, length', owned'⟩ := Schema.ownsRecord_iff.mp own'
  cases layouts
  -- Names do not repeat in a layout, so no field of the record overwrites another in the document.
  simp only [Identity.ofRecord_eq]
  refine (Identity.fieldMembers_eq_iff (length.trans length'.symm) (accepted _ _ type).names unset equal).trans ?_
  rw [recordAlike, fieldsAlike_iff]
  refine forall₄_congr fun i f g info => ?_
  refine imp_congr_right fun here => imp_congr_right fun there => imp_congr_right fun described => ?_
  refine Identity.part?_eq_iff (fun counts => ?_) fun v w first second equal => ?_
  · exact (equal i f g info here there described).resolve_left (by simpa [Comparison.skips] using counts)
  · subst first second
    have member := mem_of_getElem? here
    have own := owned _ member
    have own' := owned' _ (mem_of_getElem? there)
    rw [Schema.ownsField_value] at own own'
    exact each v member w info.kind own own' (inOrder_of_recordInOrder inOrder member) equal

theorem itemDocuments_eq_iff {items others : List (Option Value)} (each : ∀ v, some v ∈ items → v.Decides s)
    (kind : Kind) (own : s.own.items items () = true) (own' : s.own.items others () = true)
    (inOrder : keysInOrder.items items () = true) (equal : itemsEqual .identity items others = true) :
    Emit.itemDocuments true (Identity.ofItems items) kind = Emit.itemDocuments true (Identity.ofItems others) kind ↔
      itemsAlike items others := by
  induction items generalizing others with
  | nil =>
    cases others with
    | nil => simp [itemsAlike]
    | cons => simp [itemsEqual] at equal
  | cons item rest ih =>
    have later := fun others => @ih others fun v member => each v (.tail _ member)
    -- An element is equal to one that is null as well, or has a value as well.
    rcases item with - | v <;> rcases others with - | ⟨- | w, others⟩ <;>
      simp only [itemsEqual, Bool.and_eq_true, Bool.false_eq_true] at equal
    · simp only [Identity.ofItems, Emit.itemDocuments, List.cons.injEq, true_and, itemsAlike]
      exact later others own own' inOrder equal
    · obtain ⟨own, owns⟩ := (Schema.own_conjoins.both _ _).mp own
      obtain ⟨own', owns'⟩ := (Schema.own_conjoins.both _ _).mp own'
      obtain ⟨inOrder, later'⟩ := (keysInOrder_conjoins.both _ _).mp inOrder
      simp only [Identity.ofItems, Emit.itemDocuments, List.cons.injEq, itemsAlike]
      exact and_congr (each v mem_cons_self w kind own own' inOrder equal.1)
        (later others owns owns' later' equal.2)

theorem entryMembers_eq_iff (each : ∀ k v, (k, some v) ∈ entries → v.Decides s) (kind : Kind)
    (own : s.own.entries entries () = true) (own' : s.own.entries others () = true)
    (sorted : (entries.map Prod.fst).Pairwise (· < ·)) (inOrder : keysInOrder.entries entries () = true)
    (equal : entriesEqual .identity entries others = true) :
    Emit.entryMembers true (Identity.ofEntries entries) kind before =
      Emit.entryMembers true (Identity.ofEntries others) kind before ↔ entriesAlike entries others := by
  induction entries generalizing others before with
  | nil =>
    cases others with
    | nil => simp [entriesAlike]
    | cons => simp [entriesEqual] at equal
  | cons e rest ih =>
    have later := fun others before => @ih others before fun k v member => each k v (.tail _ member)
    obtain ⟨apart, onwards⟩ := pairwise_cons.mp sorted
    rcases e with ⟨k, - | v⟩ <;> rcases others with - | ⟨⟨l, - | w⟩, others⟩ <;>
      simp only [entriesEqual, Bool.and_eq_true, beq_iff_eq, Bool.false_eq_true] at equal
    · obtain ⟨rfl, equals⟩ := equal
      simp only [Identity.ofEntries, Emit.entryMembers, entriesAlike]
      exact later others _ own own' onwards inOrder equals
    · obtain ⟨⟨rfl, equal⟩, equals⟩ := equal
      obtain ⟨own, owns⟩ := (Schema.own_conjoins.both _ _).mp own
      obtain ⟨own', owns'⟩ := (Schema.own_conjoins.both _ _).mp own'
      obtain ⟨inOrder, later'⟩ := (keysInOrder_conjoins.both _ _).mp inOrder
      -- The other map has the same keys, so that this one comes before the rest there too.
      have others' := keys_of_entriesEqual equals
      simp only [Identity.ofEntries, Emit.entryMembers, entriesAlike]
      rw [Emit.entryMembers_insert_inj (Identity.apart_ofEntries apart)
        (Identity.apart_ofEntries (others' ▸ apart))]
      exact and_congr (each k v mem_cons_self w kind own own' inOrder equal)
        (later others _ owns owns' onwards later' equals)

/-- Values that are equal in identity have the same document if they are alike. -/
theorem Value.document_eq_iff (accepted : s.Accepted) (v : Value) : v.Decides s := by
  induction v using Value.induct with
  | scalar v plain =>
    intro w kind own own' inOrder equal
    cases v <;> cases w <;> first | (cases plain; done) | cases equal | skip
    case unknown.unknown u w =>
      -- Equality says no more than that the names are the same.
      have names : u.name = w.name := by simpa [Value.equals] using equal
      simp only [Identity.ofValue, Emit.value, Json.object.injEq, Value.Alike, names]
      exact Emit.insert_typeNameKey_inj
    -- Leaves are equal only if they are the same.
    all_goals simp_all [Value.equals, Value.Alike]
  | record a ih =>
    intro w kind own own' inOrder equal
    cases w with
    | record b =>
      have layouts : a.layout = b.layout := ((recordEquals_iff accepted (by decide) own own').mp equal).1
      -- The tags are the same, so the members decide.
      have name : (Identity.ofRecord a).layout.name = (Identity.ofRecord b).layout.name := by
        rw [Identity.ofRecord_eq, Identity.ofRecord_eq, layouts]
      simp only [Identity.ofValue, Emit.value_record, Json.object.injEq, Value.Alike, name]
      exact recordMembers_eq_iff accepted ih own own' inOrder equal fun info _ =>
        Emit.find?_tag_ne_null kind _ info.name
    | _ => cases equal
  | list items ih =>
    intro w kind own own' inOrder equal
    cases w with
    | list others =>
      simp only [Identity.ofValue, Emit.value, Json.array.injEq, Value.Alike]
      exact itemDocuments_eq_iff ih kind.element own own' inOrder equal
    | _ => cases equal
  | map entries ih =>
    intro w kind own own' inOrder equal
    cases w with
    | map others =>
      obtain ⟨sorted, inside⟩ := (keysInOrder_conjoins.both _ _).mp inOrder
      simp only [Identity.ofValue, Emit.value, Json.object.injEq, Value.Alike]
      exact entryMembers_eq_iff ih kind.element own own' (of_decide_eq_true sorted) inside equal
    | _ => cases equal

/-- Records that are equal in identity have the same text for their hash if they are alike. -/
theorem RecordOf.identityText_eq_iff_alike (accepted : s.Accepted) (own : s.ownsRecord a = true)
    (own' : s.ownsRecord b = true) (inOrder : recordInOrder a = true) (equal : a.equals .identity b = true) :
    a.identityText = b.identityText ↔ a.Alike b := by
  have layouts : a.layout = b.layout := ((recordEquals_iff accepted (by decide) own own').mp equal).1
  -- The text is that of the document of the identity.
  have document : ∀ r : Record, r.identity.toJson true =
      .object (Emit.fieldMembers true (Identity.ofRecord r).fields (Identity.ofRecord r).layout.fields []) := by
    intro r
    rcases r with ⟨layout, fields⟩
    simp only [RecordOf.identity, Identity.ofRecord, RecordOf.toJson, RecordOf.jsonMembers, Emit.record]
  rw [RecordOf.identityText_eq_iff (congrArg Layout.name layouts), document, document, Json.object.injEq]
  exact recordMembers_eq_iff accepted (fun v _ => v.document_eq_iff accepted) own own' inOrder equal fun info _ => by
    simp [Entries.find?]

end alike

/-- A record is absorbed into the node that is known by its key. -/
theorem Graph.Sound.absorb_of_lookup {g g' : Graph} (sound : Sound g) {parentRoot : Option NodeId} {id id' : NodeId}
    (known : g.lookup r = some id) (absorbed : Graph.absorb r parentRoot g = .ok id' g') : id' = id := by
  have ends := absorb_traces sound r parentRoot
  rw [Step.Ends, absorbed] at ends
  obtain ⟨merged, performs, found, -⟩ := ends
  -- What was found under the key before is found under it afterwards.
  exact Option.some.inj (found.symm.trans ((performs.sound sound).2.2 _ _ known))

open EntityGraph.Graph in
/-- Among records that are equal in identity, those that are alike have one text for their hash, and only those. They
have one key, and go into one node of any graph. -/
theorem RecordOf.key_of_equals_identity {serial : Nat} {d : Declarations} {s : Schema}
    (compiled : Schema.compile serial d = .ok s) {a b : Record} (own : s.ownsRecord a = true)
    (own' : s.ownsRecord b = true) (inOrder : recordInOrder a = true) (equal : a.equals .identity b = true) :
    (a.identityText = b.identityText ↔ a.Alike b) ∧
    (a.Alike b → a.key = b.key ∧ ∀ (F : Formulas) (g : Graph), Reachable F s g →
      ∀ id, g.lookup a = some id → g.lookup b = some id ∧
        ∀ parentRoot id' g', absorb b parentRoot g = .ok id' g' → id' = id) := by
  have accepted : s.Accepted := fun _ _ type => Schema.accepted_of_type? compiled type
  have texts := RecordOf.identityText_eq_iff_alike accepted own own' inOrder equal
  refine ⟨texts, fun alike => ?_⟩
  -- The key is a hash of the text, and all that follows is a matter of the key.
  have keys : a.key = b.key := by rw [RecordOf.key, RecordOf.key, texts.mpr alike]
  refine ⟨keys, fun F g reached id known => ?_⟩
  have known' : g.lookup b = some id := by rw [Graph.lookup, ← keys]; exact known
  exact ⟨known', fun parentRoot id' g' => reached.sound.absorb_of_lookup known'⟩

def placeType : TypeDecl :=
  ⟨"Place", none, [⟨"id", .text, 1, true, false, none, []⟩]⟩

/-- Travellers are told apart by their name, their nickname and where they come from. -/
def travellerType : TypeDecl :=
  ⟨"Traveller", none, [⟨"id", .text, 1, true, false, none, []⟩, ⟨"nick", .text, 2, true, false, none, []⟩,
    ⟨"home", .openType "Origin", 3, true, false, none, []⟩, ⟨"seen", .map .int, 4, false, false, none, []⟩]⟩

def travellerDeclarations : Declarations :=
  ⟨[placeType, travellerType], [], [⟨"Origin", .variety, ["Place"]⟩]⟩

def placeLayout : Layout :=
  travellerDeclarations.layout 0 [] placeType []

def travellerLayout : Layout :=
  travellerDeclarations.layout 0 [] travellerType []

def travellerSchema : Schema :=
  ⟨0, [placeLayout, travellerLayout], [], travellerDeclarations.opens⟩

theorem compile_traveller : Schema.compile 0 travellerDeclarations = .ok travellerSchema := by decide +kernel

def traveller (nick home seen : Field Value) : Record :=
  ⟨travellerLayout, [.value (.text "ann"), nick, home, seen]⟩

/-- A home of a type that is not known. -/
def shipHome (body : String) : Field Value :=
  .value (.unknown ⟨"Ship", .json body⟩)

/-- The first of two travellers from one ship. -/
def sailor : Record :=
  traveller .null (shipHome "\x7b\"mast\":1\x7d") (.value (.map [("reef", some (.int 1)), ("storm", none)]))

/-- The second one. The text of the ship has blanks in it, and nothing was seen from it. -/
def shipmate : Record :=
  traveller .null (shipHome "\x7b \"mast\" : 1 \x7d") .absent

theorem sailor_alike_shipmate : sailor.Alike shipmate := by
  rw [RecordOf.Alike, sailor, shipmate, traveller, traveller, recordAlike]
  simp only [shipHome]
  refine ⟨.inr (by simp [Value.Alike]), .inr rfl, .inr fun w there => ?_, .inl rfl, trivial⟩
  -- The two texts are read as the same members.
  cases there
  rw [Value.Alike]
  rfl

open EntityGraph.Graph in
/-- Travellers from ships with the same members are absorbed into one node. -/
theorem key_of_equals_identity_ship : sailor.identityText = shipmate.identityText ∧ sailor.key = shipmate.key ∧
    ∀ parentRoot id g',
      absorb shipmate parentRoot ((absorb sailor none).after (Graph.empty travellerSchema defaultRounds)) = .ok id g' →
        id = ⟨0, 0⟩ := by
  obtain ⟨texts, same⟩ := RecordOf.key_of_equals_identity compile_traveller (a := sailor) (b := shipmate)
    (by decide +kernel) (by decide +kernel) (by decide +kernel) (by decide +kernel)
  obtain ⟨keys, nodes⟩ := same sailor_alike_shipmate
  have reached := (Reachable.empty defaultRounds : Reachable noFormulas travellerSchema _).apply (.absorb sailor none)
  exact ⟨texts.mpr sailor_alike_shipmate, keys, fun parentRoot id g' =>
    (nodes noFormulas _ reached ⟨0, 0⟩ (by decide +kernel)).2 parentRoot id g'⟩

open EntityGraph.Graph in
/-- Records that are equal in identity may have different keys, where a nickname is null or not declared, and are then
absorbed into different nodes, as are travellers from ships with different members. -/
theorem not_key_of_equals_identity :
    ¬ (∀ (serial : Nat) (d : Declarations) (s : Schema) (a b : Record),
      Schema.compile serial d = .ok s → s.ownsRecord a = true → s.ownsRecord b = true →
      a.equals .identity b = true → a.key = b.key) ∧
    ¬ ∀ (serial : Nat) (d : Declarations) (s : Schema) (F : Formulas) (a b : Record)
      (g g' g'' : Graph) (id id' : NodeId), Schema.compile serial d = .ok s →
      s.ownsRecord a = true → s.ownsRecord b = true → a.equals .identity b = true →
      Reachable F s g → absorb a none g = .ok id g' → absorb b none g' = .ok id' g'' → id' = id := by
  constructor
  · -- A nickname that is null is in the text, and one that is absent is not.
    intro agree
    have same := agree 0 travellerDeclarations travellerSchema (traveller .absent .absent .absent)
      (traveller .null .absent .absent) compile_traveller (by decide +kernel) (by decide +kernel) (by decide +kernel)
    have apart : (traveller .absent .absent .absent).key ≠ (traveller .null .absent .absent).key := by decide +kernel
    exact apart same
  · -- The ships have one mast and three, which only the text tells.
    intro agree
    have first : (absorb sailor none).run' (Graph.empty travellerSchema defaultRounds) = some ⟨0, 0⟩ := by
      decide +kernel
    have second : (absorb (traveller .null (shipHome "\x7b\"mast\":3\x7d") .absent) none).run'
        ((absorb sailor none).after (Graph.empty travellerSchema defaultRounds)) = some ⟨1, 0⟩ := by
      decide +kernel
    have same := agree 0 travellerDeclarations travellerSchema noFormulas sailor _ _ _ _ ⟨0, 0⟩ ⟨1, 0⟩
      compile_traveller (by decide +kernel) (by decide +kernel) (by decide +kernel) (Reachable.empty defaultRounds)
      (Step.eq_ok_of_run' first) (Step.eq_ok_of_run' second)
    exact absurd same (by decide)

end EntityGraph
