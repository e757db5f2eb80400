import EntityGraph.Proofs.Wire.Basic
import EntityGraph.Wire.Decode
import EntityGraph.Wire.Encode

/-! The parts of fields read back, and records from their parts.

A part has flags and a payload. Its reader takes the flags off the front of those of all fields, and the payload off the
front of what is left of the bytes. -/

namespace EntityGraph

open List

/-- Writes several positions without a check, the first one first. -/
def Draft.putAll (d : Draft) (entries : List (Nat × Field Value)) : Draft :=
  entries.foldl (fun d e => d.put e.1 e.2) d

namespace Wire.Reader

open Takes

variable {sharp : Prop} {sent : List (Part × Field Value)} {value : Kind → Reader Value} {α β : Type}
  {F : Formulas} {l : Layout}

theorem bit_takes (context : String) (b : Bool) (flags : List Bool) :
    Takes (bit context (b :: flags)) [] sharp True (b, flags) :=
  pure (b, flags)

/-- The presence bits tell which elements are there, also if none were written because all are. -/
theorem presence_takes (present : List Bool) :
    Takes (presence present.length (!present.all id)) (bitmap present) sharp True present := by
  unfold presence bitmap
  cases all : present.all id with
  | true =>
    have same : List.replicate present.length true = present := by
      refine (eq_replicate_of_mem fun b member => ?_).symm
      simpa using all_eq_true.mp all b member
    have run : Takes (Pure.pure (List.replicate present.length true)) [] sharp True present := by
      rw [same]
      exact pure present
    exact run
  | false =>
    -- The bitmap has room for all bits, and the zeros behind them are cut off.
    obtain ⟨bits, size⟩ := unpackBits_packBits present
    have cut : (unpackBits (packBits present)).take present.length = present := by rw [bits, take_left]
    have run : Takes _ (packBits present) sharp True ((unpackBits (packBits present)).take present.length) :=
      (take_takes "null_bitmap" size).map fun bitmap => (unpackBits bitmap).take present.length
    rw [cut] at run
    exact run

section Collection

variable {item : Reader Value} {present : List Bool} {body : List UInt8} {limits : Prop} {v : Value}

theorem list_takes {vs : List (Option Value)} (elements : Takes (items item present []) body sharp limits vs) :
    Takes (list item present.length (!present.all id)) (bitmap present ++ body) sharp limits (.list vs) :=
  (presence_takes present).andThen (elements.map Value.list)

theorem map_takes {es : List (String × Option Value)}
    (elements : Takes (entries item present []) body sharp limits es) :
    Takes (map item present.length (!present.all id)) (bitmap present ++ body) sharp limits (.map es) :=
  (presence_takes present).andThen (elements.map Value.map)

variable {name : String} {sized : Nat → Bool → Reader Value} {deeper : Option (Nat → Bool → Reader Value)}

/-- A collection in a field of its own reads back, with the flags of later fields left alone. -/
theorem fieldCollection_takes (few : present.length ≤ Limits.collectionItems) (empty : Value)
    (inner : Takes (sized present.length (!present.all id)) (bitmap present ++ body) sharp limits v)
    (flags : List Bool) :
    Takes (fieldCollection name empty sized ((collectionPart true present body).1 ++ flags))
      (collectionPart true present body).2 sharp limits (v, flags) := by
  have bytes : (collectionPart true present body).2 = Wire.varint present.length ++ (bitmap present ++ body) := by
    simp [collectionPart]
  rw [bytes]
  -- Both flags are read before the payload is looked at.
  refine (bit_takes "non_empty" true _).andThen ((bit_takes "has_null" (!present.all id) flags).andThen ?_)
  exact ((length_takes name present.length (by decide)).bind (inner.map fun v => (v, flags))).congr
    fun _ => and_iff_right few

theorem fieldCollection_takes_empty (empty : Value) (flags : List Bool) :
    Takes (fieldCollection name empty sized ((emptyPart true).1 ++ flags)) (emptyPart true).2 sharp True
      (empty, flags) :=
  (bit_takes "non_empty" false flags).andThen (pure (empty, flags))

/-- The head of a collection inside a value, which has elements. -/
theorem collectionHead_takes (some : present.length ≠ 0) (hasNull : Bool) :
    Takes (collectionHead name) (Wire.varint present.length ++ [Wire.bool hasNull]) sharp
      (present.length ≤ Limits.collectionItems) (present.length, hasNull) := by
  refine ((length_takes name present.length (by decide)).bind ?_).congr fun _ => and_iff_left trivial
  rw [if_neg some]
  exact (bool_takes "has_null" hasNull).map fun hasNull => (present.length, hasNull)

theorem collectionHead_takes_empty (name : String) :
    Takes (collectionHead name) (emptyPart false).2 sharp True (0, false) := by
  rw [show (emptyPart false).2 = Wire.varint 0 ++ [] by simp [emptyPart]]
  exact ((length_takes name 0 (by decide)).bind (Takes.pure (0, false))).congr fun _ => by simp

theorem collectionPart_snd (present : List Bool) (body : List UInt8) : (collectionPart false present body).2 =
    (Wire.varint present.length ++ [Wire.bool (!present.all id)]) ++ (bitmap present ++ body) := by
  simp [collectionPart]

/-- A collection inside a value reads back if there is room for its elements, which is asked for after its head was
read. -/
theorem nestedCollection_takes (few : present.length ≤ Limits.collectionItems) (some : present ≠ [])
    (inner : ∀ sized ∈ deeper, Takes (sized present.length (!present.all id)) (bitmap present ++ body) sharp limits v) :
    Takes (nestedCollection name deeper) (collectionPart false present body).2 sharp (deeper ≠ none ∧ limits) v := by
  rw [collectionPart_snd]
  refine ((collectionHead_takes (by simpa using some) _).congr fun _ => iff_of_true few trivial).andThen ?_
  cases deeper with
  | none => exact (throw _ _ _).congr fun _ => by simp
  | some sized => exact (inner sized rfl).congr fun _ => by simp

/-- A collection without elements needs room inside a value all the same. -/
theorem nestedCollection_takes_empty (inner : ∀ sized ∈ deeper, Takes (sized 0 false) [] sharp True v) :
    Takes (nestedCollection name deeper) (emptyPart false).2 sharp (deeper ≠ none) v := by
  rw [← append_nil (emptyPart false).2]
  refine (collectionHead_takes_empty name).andThen ?_
  cases deeper with
  | none => exact (throw _ _ _).congr fun _ => by simp
  | some sized => exact (inner sized rfl).congr fun _ => by simp

end Collection

/-- A value of an enumeration reads back if it is not listed or its number is found under its name. Only a name that is
not listed is written, and it may be too long. -/
theorem enum_takes {schema : Schema} {name : String} {e : EnumValue}
    (known : e.isDynamic = true ∨ ∃ listed, schema.enum? name = some listed ∧ e.id ≠ 0 ∧
      listed.nameOf? e.id = some e.name) : Takes (enum schema name) (Wire.enum e) sharp
        (e.isDynamic = true → e.name.utf8ByteSize ≤ Limits.textBytes) (.enum e) := by
  unfold Wire.enum
  have number : e.id.toNat < UInt64.size := Nat.lt_trans e.id.toNat_lt (by decide)
  -- The number comes first and tells what to expect.
  refine ((varint_takes "enum" e.id.toNat).congr fun _ => iff_of_true number trivial).andThen ?_
  rcases known with dynamic | ⟨listed, found, nonzero, named⟩
  · -- Number zero is followed by the name.
    have zero : e.id = 0 := by simpa [EnumValue.isDynamic] using dynamic
    have same : EnumValue.dynamic e.name = e := by
      rw [EnumValue.dynamic, ← zero]
    simp only [zero, UInt32.toNat_zero, if_true, dynamic, forall_const]
    have run : Takes _ (Wire.text e.name) sharp (_ ≤ Limits.textBytes) (Value.enum (EnumValue.dynamic e.name)) :=
      (text_takes "enum" e.name (by decide)).map fun value => Value.enum (EnumValue.dynamic value)
    rw [same] at run
    exact run
  · -- Any other number stands for itself, and the name comes from the schema.
    have listedId : e.id.toNat ≠ 0 := fun zero => nonzero (UInt32.toNat_inj.mp zero)
    have small : e.id.toNat < UInt32.size := e.id.toNat_lt
    have same : e.id.toNat.toUInt32 = e.id := UInt32.ofNat_toNat
    have fixed : e.isDynamic = false := by simpa [EnumValue.isDynamic] using nonzero
    simp only [listedId, if_false, fixed, Bool.false_eq_true, found, small, if_true, same, named, false_implies]
    exact pure (Value.enum e)

/-- The part is read back as the field, with the flags of later fields left alone. -/
def TakesField (value : Kind → Reader Value) (kind : Kind) (part : Part) (sharp limits : Prop) (f : Field Value) :
    Prop :=
  ∀ flags, Takes (field value kind (part.1 ++ flags)) part.2 sharp limits (f, flags)

theorem takesField_absent (value : Kind → Reader Value) (kind : Kind) :
    TakesField value kind ([false], []) sharp True .absent :=
  fun flags => (bit_takes "declared" false flags).andThen (pure (Field.absent, flags))

theorem takesField_null (value : Kind → Reader Value) (kind : Kind) :
    TakesField value kind ([true, false], []) sharp True .null :=
  fun flags => (bit_takes "declared" true (false :: flags)).andThen
    ((bit_takes "non_null" false flags).andThen (pure (Field.null, flags)))

theorem takesField_value {kind : Kind} {part : Part} {limits : Prop} {v : Value}
    (inner : ∀ flags, Takes (fieldValue value kind (part.1 ++ flags)) part.2 sharp limits (v, flags)) :
    TakesField value kind (true :: true :: part.1, part.2) sharp limits (.value v) := by
  intro flags
  refine (bit_takes "declared" true (true :: (part.1 ++ flags))).andThen ?_
  refine (bit_takes "non_null" true (part.1 ++ flags)).andThen ?_
  exact (inner flags).map fun r => (Field.value r.1, r.2)

/-- The part at a position is read back as its field. -/
def TakesAt (value : Kind → Reader Value) (l : Layout) (sharp : Prop) (limits : Nat → Prop) (i : Nat)
    (s : Part × Field Value) : Prop :=
  ∃ info, l.fields[i]? = some info ∧ TakesField value info.kind s.1 sharp (limits i) s.2

/-- Parts are read one after the other, each into its position. -/
theorem fields_takes {positions : List Nat} {d : Draft} {limits : Nat → Prop}
    (each : List.Forall₂ (TakesAt value d.layout sharp limits) positions sent) (flags : List Bool) :
    Takes (fields value positions (sent.flatMap (fun s => s.1.1) ++ flags) d) (sent.flatMap fun s => s.1.2) sharp
      (∀ i ∈ positions, limits i) (d.putAll (positions.zip (sent.map Prod.snd))) := by
  induction positions generalizing sent d with
  | nil =>
    cases each
    exact (pure d).congr fun _ => by simp
  | cons i rest ih =>
    rcases each with - | ⟨⟨info, found, takes⟩, others⟩
    rename_i s sent
    unfold fields
    simp only [found, flatMap_cons, append_assoc, forall_mem_cons]
    exact (takes _).bind (ih others)

theorem zip_take_length (as : List α) (bs : List β) : (as.take bs.length).zip bs = as.zip bs := by
  rw [@zip_eq_zip_take_min _ _ as bs, @zip_eq_zip_take_min _ _ (as.take _) bs]
  simp [take_take, Nat.min_comm]

theorem zip_take (as : List α) (bs : List β) : (as.take bs.length).zip (bs.take as.length) = as.zip bs := by
  rw [@zip_eq_zip_take_min _ _ as bs, ← take_eq_take_min, Nat.min_comm, ← take_eq_take_min]

/-- Every field has at least one flag, and at most four. -/
theorem length_flags (flagged : ∀ s ∈ sent, 1 ≤ s.1.1.length ∧ s.1.1.length ≤ 4) :
    sent.length ≤ (sent.flatMap fun s => s.1.1).length ∧ (sent.flatMap fun s => s.1.1).length ≤ 4 * sent.length := by
  induction sent with
  | nil => simp
  | cons s rest ih =>
    have ⟨here, later⟩ := forall_mem_cons.mp flagged
    have ⟨many, few⟩ := ih later
    rw [flatMap_cons, length_append, length_cons]
    omega

theorem assemble_sent (some : sent ≠ []) :
    assemble (sent.map Prod.fst) = Wire.varint sent.length ++
      (Wire.varint (packBits (sent.flatMap fun s => s.1.1)).length ++ (packBits (sent.flatMap fun s => s.1.1) ++
        sent.flatMap fun s => s.1.2)) := by
  simp [assemble, Wire.prefixed, some, flatMap_map]

/-- A record reads back from its parts: they fill the first positions of the reader's layout. Parts that it has no
positions for are left behind. -/
theorem record_takes {limits : Nat → Prop}
    (each : List.Forall₂ (TakesAt value l sharp limits) (l.wireOrder.take sent.length) (sent.take l.wireOrder.length))
    (flagged : sharp → ∀ s ∈ sent, 1 ≤ s.1.1.length ∧ s.1.1.length ≤ 4) :
    ∃ front, assemble (sent.map Prod.fst) = front ++ (sent.drop l.wireOrder.length).flatMap (fun s => s.1.2) ∧
      Takes (record F value l) front sharp
        (sent.length ≤ Limits.wireFields ∧ ∀ i ∈ l.wireOrder.take sent.length, limits i)
        (((Draft.new l).putAll (l.wireOrder.zip (sent.map Prod.snd))).buildRead F) := by
  by_cases none : sent = []
  · -- Without fields there are no flags, and nothing follows the number of fields.
    subst none
    have run : Takes (record F value l) (Wire.varint 0 ++ []) sharp (0 ≤ Limits.wireFields ∧ True)
        ((Draft.new l).buildRead F) :=
      (length_takes "field_count" 0 (by decide)).bind (Takes.pure ((Draft.new l).buildRead F))
    refine ⟨Wire.varint 0 ++ [], by simp [assemble], ?_⟩
    simpa [Draft.putAll] using run
  · have nonzero : sent.length ≠ 0 := by simpa using none
    obtain ⟨bits, size⟩ := unpackBits_packBits (sent.flatMap fun s => s.1.1)
    generalize padding _ = zeros at bits
    -- The first parts are read, with the flags of the others and some zeros behind their own.
    have read := fields_takes (d := Draft.new l) each ((sent.drop l.wireOrder.length).flatMap (fun s => s.1.1) ++ zeros)
    rw [← append_assoc, ← flatMap_append, take_append_drop, ← bits, map_take,
      ← length_map Prod.snd, zip_take, length_map] at read
    refine ⟨Wire.varint sent.length ++ (Wire.varint (packBits (sent.flatMap fun s => s.1.1)).length ++
      (packBits (sent.flatMap fun s => s.1.1) ++ (sent.take l.wireOrder.length).flatMap fun s => s.1.2)), ?_, ?_⟩
    · rw [assemble_sent none]
      simp only [append_assoc, ← flatMap_append, take_append_drop]
    -- From here on only the number of packed bytes matters.
    generalize packBits (sent.flatMap fun s => s.1.1) = packed at size read ⊢
    have built := read.map fun draft : Draft => draft.buildRead F
    have run : Takes (record F value l) (Wire.varint sent.length ++ (Wire.varint packed.length ++ (packed ++
        (sent.take l.wireOrder.length).flatMap fun s => s.1.2))) sharp (sent.length ≤ Limits.wireFields ∧
          packed.length ≤ Limits.wireFields ∧ ¬ packed.length * 8 < sent.length ∧
            ∀ i ∈ l.wireOrder.take sent.length, limits i)
        (((Draft.new l).putAll (l.wireOrder.zip (sent.map Prod.snd))).buildRead F) := by
      refine (length_takes "field_count" _ (by decide)).bind ?_
      rw [if_neg nonzero]
      refine (length_takes "flags_len" _ (by decide)).bind (Takes.check _ ?_)
      exact (take_takes "flags" rfl).andThen built
    refine run.congr fun here => ⟨fun kept => ⟨kept.1, kept.2.2.2⟩, fun kept => ?_⟩
    -- With at most four flags to a field, the flags of an allowed number of fields are never too many.
    obtain ⟨many, few⟩ := length_flags (flagged here)
    obtain ⟨small, each⟩ := kept
    simp only [Limits.wireFields] at small ⊢
    exact ⟨small, by omega, by omega, each⟩

/-- A record inside a value reads back if its bytes are not too many and there is room for it. -/
theorem nested_takes {deeper : Option (Kind → Reader Value)} {bytes : List UInt8}
    {limits : Prop} {r : Record} (room : sharp → deeper ≠ none) (inner : ∀ value ∈ deeper, ∃ front behind,
      bytes = front ++ behind ∧ (sharp → behind = []) ∧ Takes (record F value l) front sharp limits r) :
    Takes (nested F deeper l) (Wire.prefixed bytes) sharp (bytes.length ≤ Limits.snapshotBytes ∧ limits)
      (.record r) := by
  rw [← append_nil (Wire.prefixed bytes)]
  refine (prefixed_takes "thing" bytes (by decide)).bind ?_
  cases deeper with
  | none => exact (throw _ _ _).congr fun here => (room here rfl).elim
  | some value =>
    obtain ⟨front, behind, rfl, whole, taken⟩ := inner value rfl
    -- The bytes of the record are read by themselves, so what follows them is untouched.
    have alone : Takes (within (front ++ behind) (record F value l)) [] sharp limits r := by
      constructor
      · intro rest r' left run
        unfold within at run
        cases result : record F value l (front ++ behind) with
        | error e middle => rw [result] at run; cases run
        | ok r'' middle =>
          rw [result] at run
          cases run
          exact ⟨(taken.recovers _ _ _ result).1, rfl⟩
      · intro here rest
        rw [← taken.passes here [], whole here]
        unfold within
        cases record F value l (front ++ []) <;> simp
    exact alone.map Value.record

end Wire.Reader

end EntityGraph
