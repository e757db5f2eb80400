import EntityGraph.Proofs.Record.State
import EntityGraph.Proofs.Redaction.Reversible
import EntityGraph.Proofs.Wire.RoundTrip

/-! Hidden records on the wire.

A reader computes anew what is left off the wire, from data that is still hidden. What it computes is shown again with
the rest of the record, or not at all, so it depends on the derivations whether the record comes back. -/

namespace EntityGraph

open List

variable {i : Nat}

namespace Redaction

variable {v : Value} {r : Record} {s : Schema} {es : List (String × Option Value)} {vs : List (Option Value)}

/-! ### Places and how they are passed -/

/-- How the leaves of a field are changed, from how those of its record are. -/
def within (way : Option Bool) (layout : Layout) (info : FieldInfo) : Option Bool :=
  way.bind fun all => if all || layout.dangerousCapable then visit info all else none

/-- How the leaves of the field at a position are changed. -/
def wayAt (way : Option Bool) (layout : Layout) (i : Nat) : Option Bool :=
  layout.fields[i]?.bind (within way layout)

/-- The record with its leaves changed in the given way. -/
def recordIn (leaf : Value → Value) (way : Option Bool) (r : Record) : Record :=
  way.elim r (record leaf r)

variable {leaf hide reveal : Value → Value} {way : Option Bool}

@[simp] theorem fieldIn_none (f : Field Value) : fieldIn leaf none f = f := by
  cases f <;> rfl

theorem valueIn_record (r : Record) : valueIn leaf way (.record r) = .record (recordIn leaf way r) := by
  cases way with
  -- Where nothing is said, both sides are left as they are.
  | none => rfl
  | some all => simp only [valueIn, recordIn, Option.elim_some, value]

theorem valueIn_unknown (u : Unknown) : valueIn leaf way (.unknown u) = .unknown u := by
  cases way with
  | none => rfl
  | some all => simp only [valueIn, Option.elim_some, value]

theorem valueIn_list (vs : List (Option Value)) :
    valueIn leaf way (.list vs) = .list (vs.map (Option.map (valueIn leaf way))) := by
  cases way with
  | none =>
    have same : valueIn leaf none = id := rfl
    simp [same]
  | some all => rw [← items_eq_map, valueIn, Option.elim_some, value]

theorem valueIn_map (es : List (String × Option Value)) :
    valueIn leaf way (.map es) = .map (es.map (Prod.map id (Option.map (valueIn leaf way)))) := by
  cases way with
  | none =>
    have same : valueIn leaf none = id := rfl
    simp [same]
  | some all => rw [← entries_eq_map, valueIn, Option.elim_some, value]

@[simp] theorem layout_recordIn (r : Record) : (recordIn leaf way r).layout = r.layout := by
  cases way with
  | none => rfl
  | some all =>
    rcases r with ⟨layout, values⟩
    simp only [recordIn, Option.elim_some, record]

theorem length_fields (values : List (Field Value)) (infos : List FieldInfo) (all : Bool) :
    (fields leaf values infos all).length = values.length := by
  induction values generalizing infos with
  | nil => rfl
  | cons f rest ih =>
    cases infos with
    | nil => simp [fields]
    | cons info infos => rw [fields_cons, length_cons, length_cons, ih infos]

theorem getElem?_fields (values : List (Field Value)) (infos : List FieldInfo) (all : Bool) (i : Nat) :
    (fields leaf values infos all)[i]? = values[i]?.map (fieldIn leaf (infos[i]?.bind fun info => visit info all)) := by
  induction values generalizing infos i with
  | nil => simp [fields]
  | cons f rest ih =>
    cases infos with
    | nil =>
      -- A field without a description is left as it is.
      have same : fieldIn leaf none = id := funext fieldIn_none
      simp [fields, same]
    | cons info infos =>
      rw [fields_cons]
      cases i with
      | zero => rfl
      | succ i => exact ih infos i

theorem length_recordIn (r : Record) : (recordIn leaf way r).fields.length = r.fields.length := by
  cases way with
  | none => rfl
  | some all =>
    rcases r with ⟨layout, values⟩
    simp only [recordIn, Option.elim_some, record]
    split
    · exact length_fields values layout.fields all
    · rfl

/-- The fields of a record are changed one by one. -/
theorem getElem?_recordIn (r : Record) (i : Nat) :
    (recordIn leaf way r).fields[i]? = r.fields[i]?.map (fieldIn leaf (wayAt way r.layout i)) := by
  have same : fieldIn leaf none = id := funext fieldIn_none
  rcases r with ⟨layout, values⟩
  -- A record that is passed over says nothing to any of its fields.
  have passed : ∀ way, (∀ info, within way layout info = none) → wayAt way layout i = none := by
    intro way silent
    unfold wayAt
    cases layout.fields[i]? with
    | none => rfl
    | some info => exact silent info
  cases way with
  | none => simp [recordIn, passed none fun _ => rfl, same]
  | some all =>
    simp only [recordIn, Option.elim_some, record]
    split
    · rename_i changed
      have told : within (some all) layout = fun info => visit info all := funext fun _ => if_pos changed
      rw [getElem?_fields, wayAt, told]
    · rename_i skipped
      simp [passed (some all) fun _ => if_neg skipped, same]

/-- What a leaf is changed to is a leaf. -/
def KeepsLeaves (leaf : Value → Value) : Prop :=
  ∀ v : Value, v.isLeaf = true → (leaf v).isLeaf = true

/-- A leaf has no unknown records in it, before and after it is changed. -/
theorem bare_value_leaf (keeps : KeepsLeaves leaf) (isLeaf : v.isLeaf = true) (all : Bool) :
    (value leaf v all).bare = value leaf v.bare all := by
  have bare : ∀ w : Value, w.isLeaf = true → w.bare = w := by
    intro w isLeaf
    cases w with
    | bool | int | double | text | enum => rfl
    | record | unknown | list | map => cases isLeaf
  have changed : (value leaf v all).isLeaf = true := by
    cases v with
    | bool | int | double | text | enum =>
      cases all with
      | false => exact isLeaf
      | true => exact keeps _ isLeaf
    | record | unknown | list | map => cases isLeaf
  rw [bare v isLeaf, bare _ changed]

/-- Unknown records are passed over, so it does not matter whether they have bodies. -/
theorem bare_value (keeps : KeepsLeaves leaf) (v : Value) (all : Bool) :
    (value leaf v all).bare = value leaf v.bare all := by
  induction v using Value.induct generalizing all with
  | scalar v plain => cases v <;> first | exact bare_value_leaf keeps rfl all | rfl | cases plain
  | record r ih =>
    rcases r with ⟨layout, values⟩
    simp only [value, record, Value.bare, recordBare]
    congr 2
    -- The flags of the record and of its fields do not depend on what they hold.
    split
    · generalize layout.fields = infos
      induction values generalizing infos with
      | nil => rfl
      | cons f rest later =>
        have others := later fun v member => ih v (.tail _ member)
        cases infos with
        | nil => cases f <;> rfl
        | cons info infos =>
          cases f with
          | value v =>
            simp only [fields, fieldsBare]
            split <;> simp only [fieldsBare, others infos, ih v mem_cons_self]
          | null | absent => simp only [fields, fieldsBare, others infos]
    · rfl
  | list vs ih =>
    simp only [value, Value.bare]
    congr 1
    induction vs with
    | nil => rfl
    | cons item rest later =>
      have others := later fun v member => ih v (.tail _ member)
      cases item with
      | none => simp only [items, itemsBare, others]
      | some v => simp only [items, itemsBare, others, ih v mem_cons_self]
  | map es ih =>
    simp only [value, Value.bare]
    congr 1
    induction es with
    | nil => rfl
    | cons e rest later =>
      have others := later fun k v member => ih k v (.tail _ member)
      rcases e with ⟨k, _ | v⟩
      · simp only [entries, entriesBare, others]
      · simp only [entries, entriesBare, others, ih k v mem_cons_self]

theorem bare_fieldIn (keeps : KeepsLeaves leaf) (f : Field Value) :
    (fieldIn leaf way f).bare = fieldIn leaf way f.bare := by
  cases f with
  | value v =>
    cases way with
    | none => rfl
    | some all => exact congrArg Field.value (bare_value keeps v all)
  | null | absent => rfl

section Undo

variable (inverse : Undoes hide reveal)
include inverse

theorem valueIn_valueIn (v : Value) : valueIn reveal way (valueIn hide way v) = v := by
  cases way with
  | none => rfl
  | some all => exact value_value inverse v all

theorem exists_record (same : .record r = valueIn hide way v) : ∃ r', v = .record r' ∧ r = recordIn hide way r' := by
  -- The value is what the hidden record shows, which is a record.
  have shown := congrArg (valueIn reveal way) same
  rw [valueIn_valueIn inverse, valueIn_record] at shown
  subst shown
  rw [valueIn_record, Value.record.injEq] at same
  exact ⟨_, rfl, same⟩

theorem exists_list (same : .list vs = valueIn hide way v) :
    ∃ vs', v = .list vs' ∧ vs = vs'.map (Option.map (valueIn hide way)) := by
  have shown := congrArg (valueIn reveal way) same
  rw [valueIn_valueIn inverse, valueIn_list] at shown
  subst shown
  rw [valueIn_list, Value.list.injEq] at same
  exact ⟨_, rfl, same⟩

theorem exists_map (same : .map es = valueIn hide way v) :
    ∃ es', v = .map es' ∧ es = es'.map (Prod.map id (Option.map (valueIn hide way))) := by
  have shown := congrArg (valueIn reveal way) same
  rw [valueIn_valueIn inverse, valueIn_map] at shown
  subst shown
  rw [valueIn_map, Value.map.injEq] at same
  exact ⟨_, rfl, same⟩

end Undo

/-! ### Conditions on the records in a value, each with how its leaves are changed -/

/-- Each record that goes on the wire in a value is as asked. A place is how leaves are changed there. -/
def throughout (asked : Option Bool → Record → Prop) : Requirement (Option Bool) Prop where
  whole r way fields := asked way r ∧ fields
  atField
    | layout, some info, way, value => info.onWire = true → value (within way layout info)
    | _, none, _, _ => True
  __ := Requirement.plain True And

/-- The record and each record that goes on the wire in it are as asked. -/
def recordThroughout (asked : Option Bool → Record → Prop) (r : Record) (way : Option Bool) : Prop :=
  (throughout asked).record r way

variable {asked : Option Bool → Record → Prop}

theorem recordThroughout.here (all : recordThroughout asked r way) : asked way r := by
  rcases r with ⟨layout, values⟩
  exact all.1

/-- The value of a field on the wire is as asked. -/
theorem recordThroughout.value (all : recordThroughout asked r way) {info : FieldInfo}
    (described : r.layout.fields[i]? = some info) (onWire : info.onWire = true)
    (here : r.fields[i]? = some (.value v)) : (throughout asked).value v (wayAt way r.layout i) := by
  have conjoins : (throughout asked).Conjoins fun answer => answer := ⟨trivial, fun _ _ => Iff.rfl⟩
  rcases r with ⟨layout, values⟩
  have inside := conjoins.fields_iff.mp all.2 i v here
  dsimp only at described
  rw [described] at inside
  rw [wayAt, described, Option.bind_some]
  exact inside onWire

/-! ### Showing what was received -/

/-- Shown again, the field of the other record is that of the first one, up to the bodies of unknown records. -/
def Shows (reveal : Value → Value) (way : Option Bool) (layout : Layout) (i : Nat) (f f' : Field Value) : Prop :=
  (fieldIn reveal (wayAt way layout i) f').bare = f.bare

/-- Derivations off the wire read nothing that is hidden. -/
def ReadsOpenly (layout : Layout) (way : Option Bool) : Prop :=
  ∀ f ∈ layout.fields, f.onWire = false → ∀ g ∈ layout.fields, g.name ∈ f.inputs → within way layout g = none

instance (layout : Layout) (way : Option Bool) : Decidable (ReadsOpenly layout way) :=
  inferInstanceAs (Decidable (∀ f ∈ layout.fields, f.onWire = false → ∀ g ∈ layout.fields, g.name ∈ f.inputs →
    within way layout g = none))

/-- What a record has off the wire stays as it is when it is shown without having been hidden. So does all that is never
hidden, and a text unless it looks like a hidden one. -/
def Steady (reveal : Value → Value) (way : Option Bool) (r : Record) : Prop :=
  ∀ (i : Nat) (info : FieldInfo) (f : Field Value), r.layout.fields[i]? = some info → info.onWire = false →
    r.fields[i]? = some f → Shows reveal way r.layout i f f

/-- What is off the wire in a record comes back: it is derived from what is not hidden and stays as it is when it is
shown, or the derivations compute what is shown as the record's own from whatever is. -/
def ComesBack (F : Formulas) (reveal : Value → Value) (way : Option Bool) (r : Record) : Prop :=
  r.Derived F ∧ ReadsOpenly r.layout way ∧ Steady reveal way r ∨
    r.Rederives F (Shows reveal way r.layout)

/-- In both cases the derivations compute what is shown as the record's own. -/
theorem ComesBack.rederives {F : Formulas} (comesBack : ComesBack F reveal way r) (keeps : KeepsLeaves reveal)
    (formulasLocal : F.Local s) (known : r.layout ∈ s.types) : r.Rederives F (Shows reveal way r.layout) := by
  rcases comesBack with ⟨derived, openly, steady⟩ | rederives
  · intro r' i f layout found offWire inside inputs
    have computed : RecordOf.AgreesAt (fun _ f f' => f'.bare = f.bare) r (r'.deriveAt F i) i := by
      refine derived.rederives formulasLocal.offWire known r' i f layout found offWire inside
        fun name input k named => ?_
      -- What is read is not hidden, so it is the record's own already.
      obtain ⟨g, found', rfl⟩ := Layout.of_indexOf? named
      have silent := openly f (mem_of_getElem? found) offWire g (mem_of_getElem? found') input
      have same : Shows reveal way r.layout k = fun f f' => f'.bare = f.bare := by
        funext f f'
        rw [Shows, wayAt, found', Option.bind_some, silent, fieldIn_none]
      have agrees := inputs _ input k named
      unfold RecordOf.AgreesAt at agrees ⊢
      rwa [same] at agrees
    -- The record's own field stays as it is when it is shown, and so does one that is the same but for bodies.
    have stays := fun g here => steady i f g found offWire here
    unfold RecordOf.AgreesAt at computed ⊢
    generalize r.fields[i]? = g, (r'.deriveAt F i).fields[i]? = g' at computed stays ⊢
    cases computed with
    | none => exact .none
    | @some g g' same =>
      have shown := stays g rfl
      rw [Shows, bare_fieldIn keeps, ← same, ← bare_fieldIn keeps, same] at shown
      exact .some shown
  · exact rederives

/-- What is received in the place of a hidden value is, shown again, the value before it was hidden, if what is off the
wire comes back. -/
def Returns (F : Formulas) (hide reveal : Value → Value) (v w : Value) : Prop :=
  ∀ (before : Value) (way : Option Bool), v = valueIn hide way before →
    (throughout (ComesBack F reveal)).value before way → (valueIn reveal way w).bare = before.bare

variable {F : Formulas}

/-- A field that is received in the place of a hidden one is shown as the field before. -/
theorem Returns.field {f f' : Field Value} (returns : Field.Rel (Returns F hide reveal) (fieldIn hide way f) f')
    (all : ∀ v, f = .value v → (throughout (ComesBack F reveal)).value v way) :
    (fieldIn reveal way f').bare = f.bare := by
  cases f with
  | value v =>
    cases returns with
    | value related => exact congrArg Field.value (related v way rfl (all v rfl))
  | null =>
    cases returns
    rfl
  | absent =>
    cases returns
    rfl

/-- Elements that are received in the place of hidden ones are shown as the elements before. -/
theorem Returns.items {vs' : List (Option Value)}
    (returns : List.Forall₂ (Option.Rel (Returns F hide reveal)) (vs.map (Option.map (valueIn hide way))) vs')
    (all : (throughout (ComesBack F reveal)).items vs way) :
    itemsBare (vs'.map (Option.map (valueIn reveal way))) = itemsBare vs := by
  induction vs generalizing vs' with
  | nil =>
    cases returns
    rfl
  | cons v rest ih =>
    rw [map_cons] at returns
    cases returns with
    | cons first others =>
      -- The condition on the elements says nothing of one that is missing.
      cases v with
      | none =>
        cases first
        simp only [map_cons, Option.map_none, itemsBare, ih others all]
      | some v =>
        cases first with
        | some related =>
          simp only [map_cons, Option.map_some, itemsBare, ih others all.2, related v way rfl all.1]

/-- So are entries, with their keys. -/
theorem Returns.entries {es' : List (String × Option Value)} (returns : List.Forall₂ (Entries.Rel (Returns F
      hide reveal)) (es.map (Prod.map id (Option.map (valueIn hide way)))) es')
    (all : (throughout (ComesBack F reveal)).entries es way) :
    entriesBare (es'.map (Prod.map id (Option.map (valueIn reveal way)))) = entriesBare es := by
  induction es generalizing es' with
  | nil =>
    cases returns
    rfl
  | cons e rest ih =>
    rcases e with ⟨k, v⟩
    rw [map_cons] at returns
    cases returns with
    | cons first others =>
      cases first with
      | mk _ first =>
        cases v with
        | none =>
          cases first
          simp only [map_cons, Prod.map, Option.map_none, id, entriesBare, ih others all]
        | some v =>
          cases first with
          | some related =>
            simp only [map_cons, Prod.map, Option.map_some, id, entriesBare, ih others all.2,
              related v way rfl all.1]

/-- A record that is received in the place of a hidden one is, shown again, the record before it was hidden. -/
theorem Returns.record {r : SizedRecord} (keeps : KeepsLeaves reveal) (formulasLocal : F.Local s)
    {sent : List (Field Value)} (accepted : r.layout.Accepted) (known : r.layout ∈ s.types)
    (returns : List.Forall₂ (Field.Rel (Returns F hide reveal)) (recordIn hide way r).sent sent)
    (all : recordThroughout (ComesBack F reveal) r way) :
    recordBare (recordIn reveal way (r.layout.receive F sent)) = recordBare r := by
  have rederives := all.here.rederives keeps formulasLocal known
  -- On the wire each field was hidden in its own way, and comes back by what is known of its parts.
  have agree : List.Forall₂ (fun i => Shows reveal way r.layout i (r.fields[i]?.getD .absent)) r.layout.wireOrder
      sent := by
    rw [RecordOf.sent, layout_recordIn, forall₂_map_left_iff] at returns
    have onWire : ∀ i ∈ r.layout.wireOrder, ∃ info, r.layout.fields[i]? = some info ∧ info.onWire = true := fun i =>
      (accepted.wire i).mp
    -- The positions are kept beside the fields, since the condition is on fields that are on the wire.
    refine ((forall₂_and_left _ _).mpr ⟨onWire, returns⟩).imp fun i f' both => ?_
    obtain ⟨⟨info, described, onWire⟩, related⟩ := both
    rw [getElem?_recordIn] at related
    have inside := r.lt_length described
    rw [getElem?_eq_getElem inside] at related ⊢
    refine Returns.field related fun v same => all.value described onWire ?_
    rw [getElem?_eq_getElem inside]
    exact congrArg some same
  refine RecordOf.recordBare_eq (by rw [layout_recordIn, Layout.layout_receive]) fun i => ?_
  -- The fields that agree when they are shown are those of the record that is shown.
  have shown := rederives.receive accepted agree i
  unfold RecordOf.AgreesAt at shown ⊢
  rw [getElem?_recordIn, Layout.layout_receive]
  generalize r.fields[i]? = f, (r.layout.receive F sent).fields[i]? = f' at shown ⊢
  cases shown with
  | none => exact .none
  | some same => exact .some same

/-- Coming back is respected by a channel from a schema to itself. -/
theorem respects_returns (channel : Wire.Channel s s) (formulasLocal : F.Local s)
    (inverse : Undoes hide reveal) (keeps : KeepsLeaves reveal) :
    Wire.Respects F s s (fun _ => True) (Returns F hide reveal) where
  -- A leaf is received as it was sent, and showing it undoes hiding it.
  bool _ before way same _ := by rw [same, valueIn_valueIn inverse]
  int _ before way same _ := by rw [same, valueIn_valueIn inverse]
  double _ before way same _ := by rw [same, valueIn_valueIn inverse]
  text _ before way same _ := by rw [same, valueIn_valueIn inverse]
  enum _ before way same _ := by rw [same, valueIn_valueIn inverse]
  -- An unknown record is never hidden. It keeps its name, and its body is not looked at.
  unknown name body before way same _ := by
    have shown := congrArg (valueIn reveal way) same
    rw [valueIn_valueIn inverse, valueIn_unknown] at shown
    rw [← shown, valueIn_unknown]
    rfl
  list returns before way same all := by
    obtain ⟨vs, rfl, rfl⟩ := exists_list inverse same
    simp only [valueIn_list, Value.bare, Returns.items returns all]
  map returns before way same all := by
    obtain ⟨es, rfl, rfl⟩ := exists_map inverse same
    simp only [valueIn_map, Value.bare, Returns.entries returns all]
  record := by
    rintro ⟨hidden, sized⟩ there sent writes _ reads returns before way same all
    obtain ⟨r, rfl, rfl⟩ := exists_record inverse same
    -- Reader and writer have one schema, so the layout is the same on both sides.
    rw [writes] at reads
    cases reads
    have accepted := channel.writes writes
    have known := mem_of_find?_eq_some writes
    rw [length_recordIn, layout_recordIn] at sized
    rw [layout_recordIn] at accepted known ⊢
    have shown := Returns.record (r := ⟨r, sized⟩) keeps formulasLocal accepted known returns all
    simp only [valueIn_record, Value.bare, shown]
  forgotten member none _ := by
    rw [none] at member
    cases member

/-! ### What is hidden stays valid on the wire -/

/-- A hidden record is known to the schema as long as the record and the hidden values are. -/
theorem known_record_of (known : recordKnown s (fun _ => True) r) (each : ∀ v, .value v ∈ r.fields → ∀ kind all,
      v.Known s (fun _ => True) kind → (value leaf v all).Known s (fun _ => True) kind) (way : Option Bool) :
    recordKnown s (fun _ => True) (recordIn leaf way r) := by
  obtain ⟨type, sized, -, inside⟩ := recordKnown_iff.mp known
  rw [recordKnown_iff, layout_recordIn, length_recordIn]
  refine ⟨type, sized, trivial, fun i info w described onWire here => ?_⟩
  rw [getElem?_recordIn, Option.map_eq_some_iff] at here
  obtain ⟨f, here, changed⟩ := here
  cases f with
  | value v =>
    have known := inside i info v described onWire here
    cases changed
    -- The field is hidden below, or passed over.
    cases wayAt way r.layout i with
    | none => exact known
    | some all => exact each v (mem_of_getElem? here) _ all known
  | null | absent => cases changed

/-- A hidden value is known to the schema as long as the value is: hidden values of enumerations are not listed, and all
else keeps its kind. -/
theorem known_value (m : Mask) (v : Value) (kind : Kind) (all : Bool) (known : v.Known s (fun _ => True) kind) :
    (value m.redact v all).Known s (fun _ => True) kind := by
  induction v using Value.induct generalizing kind all with
  | scalar v plain =>
    cases v with
    | unknown u => exact known
    | enum e =>
      cases all with
      | false => exact known
      | true =>
        cases kind with
        -- The value that hides it is not listed, which the wire allows for every enumeration.
        | enum => exact Or.inl rfl
        | _ => trivial
    | bool | int | double | text => cases all <;> cases kind <;> trivial
    | record | list | map => cases plain
  | record r ih =>
    rw [value]
    have layout : (recordIn m.redact (some all) r).layout = r.layout := layout_recordIn r
    cases kind with
    | record => exact known_record_of known ih (some all)
    | openType => exact ⟨layout ▸ known.1, known_record_of known.2 ih (some all)⟩
    | _ => trivial
  | list vs ih =>
    rw [value, items_eq_map]
    cases kind with
    | list kind =>
      refine Schema.known_conjoins.items_iff.mpr fun w member => ?_
      obtain ⟨item, there, changed⟩ := mem_map.mp member
      obtain ⟨v, rfl, rfl⟩ := Option.map_eq_some_iff.mp changed
      exact ih v there kind all (Schema.known_conjoins.items_iff.mp known v there)
    | _ => trivial
  | map es ih =>
    rw [value, entries_eq_map]
    cases kind with
    | map kind =>
      -- The keys stay, in their order.
      have keys : (es.map (Prod.map id (Option.map (valueIn m.redact (some all))))).map Prod.fst = es.map Prod.fst := by
        rw [map_map]
        rfl
      refine ⟨keys ▸ known.1, Schema.known_conjoins.entries_iff.mpr fun k w member => ?_⟩
      obtain ⟨⟨k', item⟩, there, changed⟩ := mem_map.mp member
      obtain ⟨v, rfl, rfl⟩ := Option.map_eq_some_iff.mp (congrArg Prod.snd changed)
      exact ih k' v there kind all (Schema.known_conjoins.entries_iff.mp known.2 k' v there)
    | _ => trivial

theorem known_record (m : Mask) (r : Record) (all : Bool) (known : recordKnown s (fun _ => True) r) :
    recordKnown s (fun _ => True) (record m.redact r all) :=
  known_record_of known (fun v _ => known_value m v) (some all)

end Redaction

/-- A record that is hidden, written, read and shown again is as it was, derived fields included: equal in state, and
the same in all but the bodies of unknown records, if what is off the wire in each record comes back from what is on it.
-/
theorem RecordOf.unredact_decode_encode_redact {serial : Nat} {d : Declarations} {s : Schema}
    {F : Formulas} (compiled : Schema.compile serial d = .ok s)
    (formulasLocal : F.Local s) {m : Mask} {t u : Record} {bytes : List UInt8}
    (own : s.ownsRecord t = true) (known : recordKnown s (fun _ => True) t)
    (comesBack : Redaction.recordThroughout (Redaction.ComesBack F m.unredact) t (some false))
    (written : Wire.encode (t.redact m) = .ok bytes)
    (read : Wire.decode F s t.layout.name bytes = .ok u) :
    (u.unredact m).equals .state t = true ∧ recordBare (u.unredact m) = recordBare t := by
  have accepted : s.Accepted := fun _ _ found => Schema.accepted_of_type? compiled found
  have channel := Wire.Channel.of_compile compiled compiled (.refl s)
  have inverse : Redaction.Undoes m.redact m.unredact := fun v leaf => ⟨m.isLeaf_redact leaf, m.unredact_redact_value v⟩
  have layout : (Redaction.recordIn m.redact (some false) t).layout = t.layout := Redaction.layout_recordIn t
  rw [← layout] at read
  -- What goes on the wire is the hidden record, which is as valid there as the record itself.
  have returns := Wire.decode_transfers channel
    (Redaction.respects_returns channel formulasLocal inverse fun v => m.isLeaf_unredact)
    (Redaction.known_record m t false known) written read
  -- It is read as something that is shown as the record.
  have bare : recordBare (u.unredact m) = recordBare t := by
    have hidden : Value.record (t.redact m) = Redaction.valueIn m.redact (some false) (.record t) := rfl
    have shown := returns (.record t) (some false) hidden comesBack
    rw [Redaction.valueIn_record, Value.bare, Value.bare, Value.record.injEq] at shown
    exact shown
  -- Equality in state does not look at bodies, and the record is equal to itself.
  rw [RecordOf.equals_of_bare bare]
  exact ⟨recordEquals_refl accepted t own, bare⟩

namespace Redaction

/-- Contacts have an email, which is dangerous, and a dangerous copy of it. -/
def contactType : TypeDecl :=
  ⟨"Contact", none, [⟨"email", .text, 1, false, true, none, []⟩,
    ⟨"copy", .text, 2, false, true, some (.computed ["email"] "email"), []⟩]⟩

/-- Cards have a copy that is not dangerous. -/
def cardType : TypeDecl :=
  ⟨"Card", none, [⟨"email", .text, 1, false, true, none, []⟩,
    ⟨"copy", .text, 2, false, false, some (.computed ["email"] "email"), []⟩]⟩

/-- Firms have a title, which is not dangerous, a dangerous copy of it, and contacts. -/
def firmType : TypeDecl :=
  ⟨"Firm", none, [⟨"title", .text, 1, false, false, none, []⟩,
    ⟨"copy", .text, 2, false, true, some (.computed ["title"] "title"), []⟩,
    ⟨"contacts", .list (.record "Contact"), 3, false, false, none, []⟩]⟩

def contactDeclarations : Declarations :=
  ⟨[contactType, cardType, firmType], [], []⟩

def contactLayout : Layout :=
  contactDeclarations.layout 0 [] contactType [1]

def cardLayout : Layout :=
  contactDeclarations.layout 0 [] cardType [1]

def firmLayout : Layout :=
  contactDeclarations.layout 0 [] firmType [1]

def contactSchema : Schema :=
  ⟨0, [contactLayout, cardLayout, firmLayout], [], []⟩

theorem compile_contact : Schema.compile 0 contactDeclarations = .ok contactSchema := by decide +kernel

/-- Formulas that copy the field that they are named after. -/
def copyFormulas : Formulas :=
  ⟨fun source read => read source, fun _ _ => .absent⟩

/-- A copy reads the one field that it declares. -/
theorem local_copyFormulas : copyFormulas.Local contactSchema where
  inputs l known f member inputs formula derives read read' same := by
    have declared : ∀ l ∈ contactSchema.types, ∀ f ∈ l.fields,
        f.derivation = none ∨ f.derivation = some (.computed ["email"] "email") ∨
          f.derivation = some (.computed ["title"] "title") := by decide +kernel
    rcases declared l known f member with none | email | title
    · rw [none] at derives
      cases derives
    · rw [email] at derives
      cases derives
      exact same "email" mem_cons_self
    · rw [title] at derives
      cases derives
      exact same "title" mem_cons_self
  names l known f member inputs formula derives read read' same := same formula

/-- A contact with its email. -/
def contact (email : Field Value) : Record :=
  ⟨contactLayout, [email, email]⟩

/-- A card with its email. -/
def card (email : Field Value) : Record :=
  ⟨cardLayout, [email, email]⟩

/-- A firm with its title. -/
def firm (title contacts : Field Value) : Record :=
  ⟨firmLayout, [title, title, contacts]⟩

/-- In each type the second field alone is off the wire. -/
theorem offWire_contact {l : Layout} (known : l ∈ contactSchema.types) {f : FieldInfo}
    (found : l.fields[i]? = some f) (offWire : f.onWire = false) : i = 1 := by
  have only : ∀ l ∈ contactSchema.types, ∀ i < 3, ∀ f ∈ l.fields[i]?, f.onWire = false → i = 1 := by decide +kernel
  have short : ∀ l ∈ contactSchema.types, l.fields.length ≤ 3 := by decide +kernel
  have inside := (List.getElem?_eq_some_iff.mp found).1
  exact only l known i (by have := short l known; omega) f found offWire

theorem derived_card (email : Field Value) : (card email).Derived copyFormulas := by
  have known : cardLayout ∈ contactSchema.types := by decide
  intro i f d g found offWire derives computes
  cases offWire_contact known found offWire
  cases found
  cases derives
  cases computes
  exact ⟨_, rfl, rfl⟩

theorem derived_firm (title contacts : Field Value) : (firm title contacts).Derived copyFormulas := by
  have known : firmLayout ∈ contactSchema.types := by decide
  intro i f d g found offWire derives computes
  cases offWire_contact known found offWire
  cases found
  cases derives
  cases computes
  exact ⟨_, rfl, rfl⟩

/-- The copy of a hidden email is shown as the email is. -/
theorem comesBack_contact (reveal : Value → Value) (email : Field Value) :
    ComesBack copyFormulas reveal (some false) (contact email) := by
  have known : contactLayout ∈ contactSchema.types := by decide
  refine Or.inr fun r' i f layout found offWire inside inputs => ?_
  cases offWire_contact known found offWire
  cases found
  have copied : r'.deriveAt copyFormulas 1 = ⟨r'.layout, r'.fields.set 1 (r'.field "email")⟩ := by
    unfold RecordOf.deriveAt
    rw [layout]
    rfl
  have read : r'.field "email" = r'.fields[0]?.getD .absent := by
    unfold RecordOf.field
    rw [layout]
    rfl
  -- What is known of the email that is read is that it is shown as the contact's.
  have agrees := inputs "email" mem_cons_self 0 rfl
  unfold RecordOf.AgreesAt at agrees ⊢
  rw [copied, getElem?_set_self inside, read]
  -- Both are dangerous, so they are shown in the same way.
  generalize r'.fields[0]? = f' at agrees ⊢
  cases agrees with
  | some same => exact .some same

/-- A firm with one contact, and another that is missing. -/
def acme : Record :=
  firm (.value (.text "acme")) (.value (.list [some (.record (contact (.value (.text "a@b")))), none]))

theorem known_acme : recordKnown contactSchema (fun _ => True) acme := by
  have typed : contactSchema.type? "Firm" = some firmLayout := by decide +kernel
  have typed' : contactSchema.type? "Contact" = some contactLayout := by decide +kernel
  have head : recordKnown contactSchema (fun _ => True) (contact (.value (.text "a@b"))) :=
    ⟨typed', rfl, trivial, fun _ => trivial, fun _ => trivial, trivial⟩
  exact ⟨typed, rfl, trivial, fun _ => trivial, fun _ => trivial, fun _ => ⟨head, trivial⟩, trivial⟩

/-- The copy of the title is computed from what is not hidden, and does not look hidden itself. The copy of the email is
hidden as the email is. -/
theorem comesBack_acme (m : Mask) : recordThroughout (ComesBack copyFormulas m.unredact) acme (some false) := by
  have known : firmLayout ∈ contactSchema.types := by decide
  have openly : ReadsOpenly firmLayout (some false) := by decide +kernel
  have steady : Steady m.unredact (some false) acme := by
    intro i info f found offWire here
    cases offWire_contact known found offWire
    cases here
    rfl
  have head : recordThroughout (ComesBack copyFormulas m.unredact) (contact (.value (.text "a@b"))) (some false) :=
    ⟨comesBack_contact m.unredact _, fun _ => trivial, fun _ => trivial, trivial⟩
  exact ⟨Or.inl ⟨derived_firm _ _, openly, steady⟩, fun _ => trivial, fun _ => trivial, fun _ => ⟨head, trivial⟩,
    trivial⟩

/-- The bytes of the firm with what is dangerous hidden. -/
def acmeBytes : List UInt8 :=
  [2, 1, 63, 4, 97, 99, 109, 101, 2, 1, 19, 1, 1, 3, 15, 114, 101, 100, 97, 99, 116, 101, 100, 58, 51, 57, 56, 49, 49,
    48]

/-- The bytes of the card with its email hidden. -/
def cardBytes : List UInt8 :=
  [1, 1, 3, 15, 114, 101, 100, 97, 99, 116, 101, 100, 58, 51, 57, 56, 49, 49, 48]

end Redaction

open EntityGraph.Redaction in
/-- The firm is hidden, written, read and shown again. -/
theorem RecordOf.unredact_decode_encode_redact_acme : ∃ u,
    Wire.encode (acme.redact (Mask.ofSecret [107])) = .ok acmeBytes ∧
    Wire.decode copyFormulas contactSchema "Firm" acmeBytes = .ok u ∧
    (u.unredact (Mask.ofSecret [107])).equals .state acme = true ∧
    recordBare (u.unredact (Mask.ofSecret [107])) = recordBare acme := by
  have written : Wire.encode (acme.redact (Mask.ofSecret [107])) = .ok acmeBytes := by decide +kernel
  obtain ⟨u, read⟩ := Except.exists_of_isOk (x := Wire.decode copyFormulas contactSchema "Firm" acmeBytes)
    (by decide +kernel)
  exact ⟨u, written, read, unredact_decode_encode_redact compile_contact local_copyFormulas (by decide +kernel)
    known_acme (comesBack_acme _) written read⟩

open EntityGraph.Redaction in
/-- Without the condition the record need not come back. A card has a copy of its email that is not dangerous: it is
copied anew from the hidden email, and is not shown again. -/
theorem RecordOf.not_unredact_decode_encode_redact : ¬ ∀ (serial : Nat) (d : Declarations) (s : Schema)
    (F : Formulas) (m : Mask) (t u : Record) (bytes : List UInt8),
    Schema.compile serial d = .ok s → F.Local s → s.ownsRecord t = true →
    recordKnown s (RecordOf.Derived F) t → Wire.encode (t.redact m) = .ok bytes →
    Wire.decode F s t.layout.name bytes = .ok u → (u.unredact m).equals .state t = true := by
  intro claim
  have typed : contactSchema.type? "Card" = some cardLayout := by decide +kernel
  have known : recordKnown contactSchema (RecordOf.Derived copyFormulas) (card (.value (.text "a@b"))) :=
    ⟨typed, rfl, derived_card _, fun _ => trivial, fun _ => trivial, trivial⟩
  have written : Wire.encode ((card (.value (.text "a@b"))).redact (Mask.ofSecret [107])) = .ok cardBytes := by
    decide +kernel
  obtain ⟨u, read⟩ := Except.exists_of_isOk (x := Wire.decode copyFormulas contactSchema "Card" cardBytes)
    (by decide +kernel)
  have same := claim 0 contactDeclarations contactSchema copyFormulas (Mask.ofSecret [107])
    (card (.value (.text "a@b"))) u cardBytes compile_contact local_copyFormulas (by decide +kernel) known written read
  -- The copy is still the hidden email when the card is shown again.
  have differs : (Wire.decode copyFormulas contactSchema "Card" cardBytes).toOption.map (fun u =>
      (u.unredact (Mask.ofSecret [107])).equals .state (card (.value (.text "a@b")))) = some false := by decide +kernel
  rw [read] at differs
  exact absurd same (by simpa using Option.some.inj differs)

end EntityGraph
