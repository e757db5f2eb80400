import EntityGraph.Proofs.Wire.Receive

/-! What readers give, whatever the bytes are.

Numbers may be longer than they need to be, the keys of a map may stand in any order and more than once, and flags may
say that a collection has elements when it has none. -/

namespace EntityGraph

open List

theorem utf8ByteSize_of_decode? {bytes : List UInt8} {s : String} (decoded : Utf8.decode? bytes = some s) :
    s.utf8ByteSize = bytes.length := by
  unfold Utf8.decode? String.fromUTF8? at decoded
  split at decoded
  · cases decoded
    rfl
  · cases decoded

namespace Wire.Reader

variable {layout : Layout}

/-- Whatever the bytes, what the reader makes of them has the property. -/
def Gives {α : Type} (reader : Reader α) (holds : α → Prop) : Prop :=
  ∀ bytes a left, reader bytes = .ok a left → holds a

namespace Gives

variable {α β : Type} {reader : Reader α} {holds : α → Prop} {holds' : β → Prop}

theorem pure {a : α} (here : holds a) : Gives (Pure.pure a) holds := by
  intro bytes b left run
  cases run
  exact here

theorem throw (e : DecodeError) : Gives (MonadExcept.throw e : Reader α) holds := by
  intro bytes a left run
  cases run

theorem bind {next : α → Reader β} (first : Gives reader holds) (second : ∀ a, holds a → Gives (next a) holds') :
    Gives (reader >>= next) holds' := by
  intro bytes b left run
  obtain ⟨a, middle, result, run⟩ := EStateM.bind_eq_ok.mp run
  exact second a (first _ _ _ result) _ _ _ run

theorem andThen {next : α → Reader β} (second : ∀ a, Gives (next a) holds') : Gives (reader >>= next) holds' := by
  have first : Gives reader fun _ => True := fun _ _ _ _ => trivial
  exact first.bind fun a _ => second a

theorem map {f : α → β} (first : Gives reader fun a => holds' (f a)) : Gives (f <$> reader) holds' := by
  rw [map_eq_pure_bind]
  exact first.bind fun a here => pure here

theorem mono {holds'' : α → Prop} (first : Gives reader holds) (weaker : ∀ a, holds a → holds'' a) :
    Gives reader holds'' :=
  fun bytes a left run => weaker a (first bytes a left run)

end Gives

/-- As many bytes are given as were asked for. -/
theorem take_gives (n : Nat) (context : String) : Gives (take n context) fun front => front.length = n := by
  intro bytes front left run
  simp only [take] at run
  split at run
  · cases run
  · -- The front of some bytes is never longer than what was asked for.
    rename_i enough
    cases run
    have most := length_take_le n bytes
    omega

/-- A length keeps its limit. -/
theorem length_gives (limit : Nat) (field : String) : Gives (length limit field) fun n => n ≤ limit := by
  refine Gives.andThen fun n => ?_
  split
  · exact Gives.throw _
  · rename_i few
    exact Gives.pure (by omega)

/-- So does a text. -/
theorem text_gives (limit : Nat) (field : String) : Gives (text limit field) fun s => s.utf8ByteSize ≤ limit := by
  -- The bytes of the text are counted before they are taken.
  have bytes : Gives (prefixed limit field) fun bytes => bytes.length ≤ limit := by
    refine (length_gives limit field).bind fun n few => ?_
    exact (take_gives n field).mono fun bytes size => by omega
  refine bytes.bind fun bytes few => ?_
  split
  · rename_i s decoded
    refine Gives.pure ?_
    rwa [utf8ByteSize_of_decode? decoded]
  · exact Gives.throw _

theorem presence_gives (count : Nat) (hasNull : Bool) :
    Gives (presence count hasNull) fun present => present.length ≤ count := by
  unfold presence
  split
  · exact Gives.andThen fun bitmap => Gives.pure (length_take_le _ _)
  · refine Gives.pure ?_
    simp

section Collection

variable {item : Reader Value} {holds : Value → Prop}

section

variable (each : Gives item holds)
include each

/-- There are as many elements as bits of presence, and those that are there come from the bytes. -/
theorem items_gives (present : List Bool) (before : List (Option Value)) (held : ∀ v, some v ∈ before → holds v) :
    Gives (items item present before) fun vs =>
      vs.length = before.length + present.length ∧ ∀ v, some v ∈ vs → holds v := by
  induction present generalizing before with
  | nil =>
    refine Gives.pure ⟨by simp, fun v member => held v ?_⟩
    simpa using member
  | cons here rest ih =>
    cases here with
    | false =>
      refine (ih (none :: before) fun v member => held v (by simpa using member)).mono fun vs result => ?_
      refine ⟨?_, result.2⟩
      rw [result.1, length_cons, length_cons]
      omega
    | true =>
      refine each.bind fun v read => ?_
      -- The element that was read joins those before it.
      have joined : ∀ w, some w ∈ some v :: before → holds w := by
        intro w member
        rcases mem_cons.mp member with same | earlier
        · cases same
          exact read
        · exact held w earlier
      refine (ih (some v :: before) joined).mono fun vs result => ?_
      refine ⟨?_, result.2⟩
      rw [result.1, length_cons, length_cons]
      omega

/-- Entries are put in order as they are read, and a key that comes again replaces its entry. -/
theorem entries_gives (present : List Bool) (before : List (String × Option Value))
    (sorted : (before.map Prod.fst).Pairwise (· < ·)) (held : ∀ k v, (k, some v) ∈ before → holds v) :
    Gives (entries item present before) fun es => (es.map Prod.fst).Pairwise (· < ·) ∧
      es.length ≤ before.length + present.length ∧ ∀ k v, (k, some v) ∈ es → holds v := by
  -- One more entry keeps the order, adds at most one, and leaves the values that were there.
  have step : ∀ (before : List (String × Option Value)) (key : String) (o : Option Value),
      (before.map Prod.fst).Pairwise (· < ·) → (∀ k v, (k, some v) ∈ before → holds v) →
      (∀ v, o = some v → holds v) → ((Entries.insert key o before).map Prod.fst).Pairwise (· < ·) ∧
        ∀ k v, (k, some v) ∈ Entries.insert key o before → holds v := by
    intro before key o sorted held fresh
    refine ⟨pairwise_map.mpr (Entries.pairwise_insert (pairwise_map.mp sorted)), fun k v member => ?_⟩
    rcases Entries.of_mem_insert member with same | earlier
    · exact fresh v (by simpa using (congrArg Prod.snd same).symm)
    · exact held k v earlier
  induction present generalizing before with
  | nil => exact Gives.pure ⟨sorted, by simp, held⟩
  | cons here rest ih =>
    cases here with
    | false =>
      refine Gives.andThen fun key => ?_
      obtain ⟨sorted, held⟩ := step before key none sorted held (fun v same => by cases same)
      refine (ih _ sorted held).mono fun es result => ⟨result.1, ?_, result.2.2⟩
      have most := Entries.length_insert_le key none before
      have total := result.2.1
      rw [length_cons]
      omega
    | true =>
      refine Gives.andThen fun key => each.bind fun v read => ?_
      obtain ⟨sorted, held⟩ := step before key (some v) sorted held (fun w same => by cases same; exact read)
      refine (ih _ sorted held).mono fun es result => ⟨result.1, ?_, result.2.2⟩
      have most := Entries.length_insert_le key (some v) before
      have total := result.2.1
      rw [length_cons]
      omega

/-- A list has as many elements as were counted. -/
theorem list_gives (count : Nat) (hasNull : Bool) :
    Gives (list item count hasNull) fun v => ∃ vs, v = .list vs ∧ vs.length ≤ count ∧ ∀ v, some v ∈ vs → holds v := by
  refine (presence_gives count hasNull).bind fun present few => ?_
  refine (items_gives each present [] (by simp)).bind fun vs result => ?_
  refine Gives.pure ⟨vs, rfl, ?_, result.2⟩
  rw [result.1, length_nil]
  omega

/-- A map is in order, and has at most as many entries. -/
theorem map_gives (count : Nat) (hasNull : Bool) :
    Gives (map item count hasNull) fun v =>
      ∃ es, v = .map es ∧ (es.map Prod.fst).Pairwise (· < ·) ∧ es.length ≤ count ∧
        ∀ k v, (k, some v) ∈ es → holds v := by
  refine (presence_gives count hasNull).bind fun present few => ?_
  refine (entries_gives each present [] List.Pairwise.nil (by simp)).bind fun es result => ?_
  refine Gives.pure ⟨es, rfl, result.1, ?_, result.2.2⟩
  have total := result.2.1
  rw [length_nil] at total
  omega

end

variable {name : String}

/-- A collection in a field of its own is empty or has a number of elements that keeps the limit. -/
theorem fieldCollection_gives {empty : Value} {sized : Nat → Bool → Reader Value} (none : holds empty)
    (some : ∀ count hasNull, count ≤ Limits.collectionItems → Gives (sized count hasNull) holds) (flags : List Bool) :
    Gives (fieldCollection name empty sized flags) fun r => holds r.1 := by
  refine Gives.andThen ?_
  rintro ⟨nonEmpty, flags⟩
  dsimp only
  split
  · refine Gives.andThen ?_
    rintro ⟨hasNull, flags⟩
    refine (length_gives Limits.collectionItems name).bind fun count few => ?_
    exact (some count hasNull few).bind fun v read => Gives.pure read
  · exact Gives.pure none

/-- A collection inside a value has a number of elements that keeps the limit, and needs room for them. -/
theorem nestedCollection_gives {deeper : Option (Nat → Bool → Reader Value)}
    (some : ∀ sized ∈ deeper, ∀ count hasNull, count ≤ Limits.collectionItems → Gives (sized count hasNull) holds) :
    Gives (nestedCollection name deeper) holds := by
  have head : Gives (collectionHead name) fun head => head.1 ≤ Limits.collectionItems := by
    refine (length_gives Limits.collectionItems name).bind fun count few => ?_
    split
    · exact Gives.pure (Nat.zero_le _)
    · exact Gives.andThen fun hasNull => Gives.pure few
  refine head.bind ?_
  rintro ⟨count, hasNull⟩ few
  cases deeper with
  | none => exact Gives.throw _
  | some sized => exact some sized rfl count hasNull few

end Collection

/-- A number other than zero is one that the schema lists. -/
theorem enum_gives (schema : Schema) (name : String) : Gives (enum schema name) fun v => ∃ e, v = .enum e ∧
    (e.isDynamic = true ∨ ∃ listed, schema.enum? name = some listed ∧ (e.id, e.name) ∈ listed.values) := by
  refine Gives.andThen fun id => ?_
  split
  · exact Gives.andThen fun value => Gives.pure ⟨_, rfl, Or.inl rfl⟩
  · split
    · exact Gives.throw _
    · rename_i listed found
      -- The number has to fit and to have a name.
      split
      · split
        · rename_i value named
          refine Gives.pure ⟨_, rfl, Or.inr ⟨listed, found, ?_⟩⟩
          -- The look-up found a value with this number.
          obtain ⟨⟨listedId, listedName⟩, there, rfl⟩ := Option.map_eq_some_iff.mp named
          have number : listedId = id.toUInt32 := by simpa using find?_some there
          rw [← number]
          exact mem_of_find?_eq_some there
        · exact Gives.throw _
      · exact Gives.throw _

/-- A record inside a value is one that is read from bytes of its own. -/
theorem nested_gives {F : Formulas} {deeper : Option (Kind → Reader Value)}
    {holds : Record → Prop} (inner : ∀ value ∈ deeper, Gives (record F value layout) holds) :
    Gives (nested F deeper layout) fun v => ∃ r, v = .record r ∧ holds r := by
  refine Gives.andThen fun body => ?_
  split
  · exact Gives.throw _
  · rename_i value
    have alone : Gives (within body (record F value layout)) holds := by
      intro bytes r left run
      unfold within at run
      split at run
      · rename_i result
        cases run
        exact inner value rfl _ _ _ result
      · cases run
    exact alone.bind fun r here => Gives.pure ⟨r, rfl, here⟩

/-- The field at a position has a value that is as expected of its kind, if it has one. -/
def Expected (holds : Kind → Value → Prop) (l : Layout) (i : Nat) (f : Field Value) : Prop :=
  ∀ info, l.fields[i]? = some info → ∀ v, f = .value v → holds info.kind v

section Fields

variable {value : Kind → Reader Value} {holds : Kind → Value → Prop}
  (each : ∀ kind flags, Gives (fieldValue value kind flags) fun r => holds kind r.1)
include each

/-- A field has a value as expected of its kind. -/
theorem field_gives (kind : Kind) (flags : List Bool) :
    Gives (field value kind flags) fun r => ∀ v, r.1 = .value v → holds kind v := by
  refine Gives.andThen ?_
  rintro ⟨declared, flags⟩
  dsimp only
  split
  · refine Gives.andThen ?_
    rintro ⟨nonNull, flags⟩
    dsimp only
    split
    · refine (each kind flags).bind fun r read => Gives.pure ?_
      intro v same
      cases same
      exact read
    · exact Gives.pure fun v same => by cases same
  · exact Gives.pure fun v same => by cases same

/-- Fields are read one after the other, each into its position. -/
theorem fields_gives {positions : List Nat} {draft : Draft}
    (inside : ∀ i ∈ positions, ∃ info, draft.layout.fields[i]? = some info) (flags : List Bool) :
    Gives (fields value positions flags draft) fun result => ∃ sent, result = draft.putAll (positions.zip sent) ∧
      List.Forall₂ (Expected holds draft.layout) positions sent := by
  induction positions generalizing draft flags with
  | nil => exact Gives.pure ⟨[], rfl, .nil⟩
  | cons i rest ih =>
    obtain ⟨info, found⟩ := inside i mem_cons_self
    unfold fields
    simp only [found]
    refine (field_gives each info.kind flags).bind fun r read => ?_
    -- The field goes to its position, and the layout stays the same.
    have later : ∀ j ∈ rest, ∃ info, (draft.put i r.1).layout.fields[j]? = some info :=
      fun j member => inside j (.tail _ member)
    refine (ih later r.2).mono ?_
    rintro result ⟨sent, filled, expected⟩
    refine ⟨r.1 :: sent, filled, .cons ?_ expected⟩
    intro info' same v isValue
    rw [found] at same
    cases same
    exact read v isValue

/-- A record is received from its first fields on the wire, which may be fewer than the layout has. -/
theorem record_gives (F : Formulas) (accepted : layout.Accepted) :
    Gives (record F value layout) fun r => ∃ count sent, r = layout.receive F sent ∧
      List.Forall₂ (Expected holds layout) (layout.wireOrder.take count) sent := by
  refine Gives.andThen fun count => ?_
  split
  · -- Without fields everything is absent.
    refine Gives.pure ⟨0, [], ?_, .nil⟩
    simp [Layout.receive, Draft.putAll]
  · refine Gives.andThen fun size => ?_
    split
    · exact Gives.throw _
    · refine Gives.andThen fun flags => ?_
      have inside : ∀ i ∈ layout.wireOrder.take count, ∃ info, (Draft.new layout).layout.fields[i]? = some info := by
        intro i member
        obtain ⟨info, found, -⟩ := (accepted.wire i).mp (mem_of_mem_take member)
        exact ⟨info, found⟩
      refine (fields_gives each inside (unpackBits flags)).bind ?_
      rintro draft ⟨sent, rfl, expected⟩
      refine Gives.pure ⟨count, sent, ?_, expected⟩
      -- Positions beyond the last field that was sent have nothing to be filled with.
      have cut := zip_take_length layout.wireOrder sent
      have same : layout.wireOrder.take sent.length = layout.wireOrder.take count := by
        rw [← expected.length_eq, length_take, ← take_eq_take_min]
      rw [same] at cut
      rw [cut]
      rfl

end Fields

end Wire.Reader

end EntityGraph
