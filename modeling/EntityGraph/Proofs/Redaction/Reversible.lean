import EntityGraph.Proofs.Record.Induction
import EntityGraph.Proofs.Wire.Basic
import EntityGraph.Redaction.Basic

/-! What is hidden with a mask is shown again with the same mask, whatever it was. -/

namespace EntityGraph

open List

variable {v : Value}

namespace Hex

theorem value?_digit {n : UInt8} (small : n < 16) : value? (digit n) = some n := by
  -- Sixteen digits, each checked against the two ranges that the reader tests.
  have all : ∀ k : Fin 16, value? (digit (UInt8.ofNat k)) = some (UInt8.ofNat k) := by decide
  have bound : n.toNat < 16 := by simpa [UInt8.lt_iff_toNat_lt] using small
  simpa using all ⟨n.toNat, bound⟩

theorem join_halves (b : UInt8) : (b >>> 4) <<< 4 ||| b &&& 15 = b := by
  have all : ∀ k : Fin 256, (UInt8.ofNat k >>> 4) <<< 4 ||| UInt8.ofNat k &&& 15 = UInt8.ofNat k := by
    decide +kernel
  simpa using all ⟨b.toNat, b.toNat_lt⟩

theorem readPairs?_chars (before bytes : List UInt8) :
    readPairs? before (chars bytes) = some (before.reverse ++ bytes) := by
  induction bytes generalizing before with
  | nil => simp [chars, readPairs?]
  | cons b rest ih =>
    -- The two halves are below sixteen, so their digits are read as they are.
    have high : b >>> 4 < 16 := by
      have bound := b.toNat_lt
      have half : (b >>> 4).toNat = b.toNat / 16 := by
        rw [UInt8.toNat_shiftRight]
        exact Nat.shiftRight_eq_div_pow b.toNat 4
      simp only [UInt8.lt_iff_toNat_lt, half, UInt8.reduceToNat]
      omega
    have low : b &&& 15 < 16 := by
      simp only [UInt8.lt_iff_toNat_lt, UInt8.toNat_and]
      exact Nat.lt_of_le_of_lt Nat.and_le_right (by decide)
    have digits : chars (b :: rest) = digit (b >>> 4) :: digit (b &&& 15) :: chars rest := rfl
    rw [digits, readPairs?, value?_digit high, value?_digit low]
    simp only [join_halves, ih, reverse_cons, append_assoc, singleton_append]

/-- Bytes come back from their digits. -/
theorem ofChars?_chars (bytes : List UInt8) : ofChars? (chars bytes) = some bytes :=
  readPairs?_chars [] bytes

end Hex

namespace Mask

variable (m : Mask)

/-- The keystream is as long as it is asked for. -/
theorem length_keystream (length : Nat) : (m.keystream length).length = length := by
  -- Each block has thirty-two bytes, so enough blocks are made.
  have blocks : ∀ counters : List Nat, (counters.flatMap m.block).length = 32 * counters.length := by
    intro counters
    induction counters with
    | nil => rfl
    | cons counter rest ih =>
      simp only [flatMap_cons, length_append, length_cons, ih, block, m.length_hash]
      omega
  simp only [keystream, length_take, blocks, length_range]
  omega

/-- Combining with the same bytes twice changes nothing. -/
theorem zipWith_xor_zipWith {bytes stream : List UInt8} (enough : bytes.length = stream.length) :
    List.zipWith (· ^^^ ·) (List.zipWith (· ^^^ ·) bytes stream) stream = bytes := by
  induction bytes generalizing stream with
  | nil => rfl
  | cons b rest ih =>
    cases stream with
    | nil => cases enough
    | cons k stream =>
      rw [zipWith_cons_cons, zipWith_cons_cons, ih (Nat.succ.inj enough), UInt8.xor_assoc, UInt8.xor_self,
        UInt8.xor_zero]

/-- Combined twice, bytes are as they were. -/
theorem combine_combine (bytes : List UInt8) : m.combine (m.combine bytes) = bytes := by
  have same : (m.combine bytes).length = bytes.length := by simp [combine, length_keystream]
  -- The keystream depends on the length alone, which stays.
  unfold combine at same ⊢
  rw [same, zipWith_xor_zipWith (length_keystream m _).symm]

theorem unmarked?_mark (digits : List Char) : unmarked? (mark ++ String.ofList digits) = some digits := by
  have length : mark.length = mark.toList.length := String.length_toList.symm
  simp [unmarked?, length]

/-- A concealed text is revealed. -/
theorem reveal?_conceal (plain : String) : m.reveal? (m.conceal plain) = some plain := by
  unfold reveal? conceal Hex.encode
  simp only [unmarked?_mark, Option.bind_eq_bind, Option.bind_some, Hex.ofChars?_chars, combine_combine,
    Wire.Reader.decode?_encode]

/-- The decimal digits of a number are read back. -/
theorem readId?_toDigits (id : UInt32) : readId? (Nat.toDigits 10 id.toNat) = some id := by
  have digits : ∀ c ∈ Nat.toDigits 10 id.toNat, c.isDigit = true := fun c =>
    Nat.isDigit_of_mem_toDigits (by decide) (by decide)
  have spelled : (Nat.toDigits 10 id.toNat).foldl (fun n c => 10 * n + (c.toNat - 48)) 0 = id.toNat := by
    have read : Nat.ofDigitChars 10 (Nat.toDigits 10 id.toNat) 0 = id.toNat := Nat.ofDigitChars_ten_toDigits
    rwa [Nat.ofDigitChars_eq_foldl] at read
  have nonempty : (Nat.toDigits 10 id.toNat).isEmpty = false := by simp
  have all : (Nat.toDigits 10 id.toNat).all Char.isDigit = true := all_eq_true.mpr digits
  unfold readId?
  split
  · -- No digit is a plus sign.
    rename_i rest signed
    have plus := digits '+' (by rw [signed]; exact mem_cons_self)
    cases plus
  · simp only [nonempty, all, spelled, Bool.not_true, Bool.or_self, Bool.false_eq_true, if_false, if_pos id.toNat_lt,
      UInt32.size]
    simp

/-- The number and the name of a value are read back, whatever characters the name has. -/
theorem readEnum?_enumText (e : EnumValue) : readEnum? (enumText e) = some e := by
  have text : (enumText e).toList = Nat.toDigits 10 e.id.toNat ++ ':' :: e.name.toList := by
    simp [enumText]
  -- The first colon is the one behind the number, since digits are no colons.
  have number : (enumText e).toList.takeWhile (· != ':') = Nat.toDigits 10 e.id.toNat := by
    rw [text, takeWhile_append_of_pos]
    · simp
    · intro c member
      have digit := Nat.isDigit_of_mem_toDigits (by decide) (by decide) member
      simp only [bne_iff_ne, ne_eq]
      rintro rfl
      cases digit
  have rest : (enumText e).toList.drop (Nat.toDigits 10 e.id.toNat).length = ':' :: e.name.toList := by
    rw [text, drop_left]
  unfold readEnum?
  simp only [number, rest, readId?_toDigits, Option.map_some, String.ofList_toList]

end Mask

/-- A value without parts: a boolean, a number, a text or a value of an enumeration. -/
def Value.isLeaf : Value → Bool
  | .bool _ | .int _ | .double _ | .text _ | .enum _ => true
  | _ => false

namespace Mask

theorem isLeaf_redact (m : Mask) (leaf : v.isLeaf = true) : (m.redact v).isLeaf = true := by
  cases v with
  | bool | int | double | text | enum => rfl
  | record | unknown | list | map => cases leaf

theorem isLeaf_unredact (m : Mask) (leaf : v.isLeaf = true) : (m.unredact v).isLeaf = true := by
  cases v with
  | bool | int | double | text | enum => rfl
  | record | unknown | list | map => cases leaf

/-- A hidden value is shown as it was. -/
theorem unredact_redact_value (m : Mask) (v : Value) : m.unredact (m.redact v) = v := by
  -- A word that meets the mask twice is as before.
  have twice : ∀ w : UInt64, w ^^^ m.word ^^^ m.word = w := fun w => by
    rw [UInt64.xor_assoc, UInt64.xor_self, UInt64.xor_zero]
  cases v with
  | bool b => simp [redact, unredact, combineValue]
  | int n => simp only [redact, unredact, combineValue, UInt64.toUInt64_toInt64, twice, Int64.toInt64_toUInt64]
  | double x => simp only [redact, unredact, combineValue, twice]
  | text s => simp [redact, unredact, reveal?_conceal]
  | enum e =>
    -- The value that hides it is not listed, so its name is looked at.
    simp [redact, unredact, revealEnum?, EnumValue.dynamic, EnumValue.isDynamic, reveal?_conceal, readEnum?_enumText]
  | record | unknown | list | map => rfl

end Mask

namespace Redaction

/-- What a leaf is changed to is a leaf, from which it can be had back. -/
def Undoes (hide reveal : Value → Value) : Prop :=
  ∀ v : Value, v.isLeaf = true → (hide v).isLeaf = true ∧ reveal (hide v) = v

variable {hide reveal : Value → Value}

/-- Whether a leaf is changed depends on where it stands alone. -/
theorem value_value_leaf (inverse : Undoes hide reveal) (leaf : v.isLeaf = true) (all : Bool) :
    value reveal (value hide v all) all = v := by
  have onLeaf : ∀ (f : Value → Value) (v : Value), v.isLeaf = true → value f v all = if all then f v else v := by
    intro f v leaf
    cases v with
    | bool | int | double | text | enum => rfl
    | record | unknown | list | map => cases leaf
  obtain ⟨stays, back⟩ := inverse v leaf
  cases all with
  | false => rw [onLeaf hide v leaf, if_neg Bool.false_ne_true, onLeaf reveal v leaf, if_neg Bool.false_ne_true]
  | true => rw [onLeaf hide v leaf, if_pos rfl, onLeaf reveal _ stays, if_pos rfl, back]

/-- How the leaves of a field are changed in a record that is gone through: all of them, those under dangerous fields
or, if nothing is said, none. -/
def visit (info : FieldInfo) (all : Bool) : Option Bool :=
  if all || info.dangerous || info.reachesDangerous then some (all || info.dangerous) else none

/-- The value with its leaves changed in the given way. -/
def valueIn (leaf : Value → Value) (way : Option Bool) (v : Value) : Value :=
  way.elim v (value leaf v)

/-- The field with its leaves changed in the given way. -/
def fieldIn (leaf : Value → Value) (way : Option Bool) : Field Value → Field Value
  | .value v => .value (valueIn leaf way v)
  | f => f

variable {leaf : Value → Value}

theorem items_eq_map (vs : List (Option Value)) (all : Bool) :
    items leaf vs all = vs.map (Option.map (valueIn leaf (some all))) := by
  induction vs with
  | nil => rfl
  | cons v rest ih => cases v <;> simp [items, ih, valueIn]

theorem entries_eq_map (es : List (String × Option Value)) (all : Bool) :
    entries leaf es all = es.map (Prod.map id (Option.map (valueIn leaf (some all)))) := by
  induction es with
  | nil => rfl
  | cons e rest ih =>
    rcases e with ⟨k, v⟩
    cases v <;> simp [entries, ih, valueIn]

/-- Whatever a field holds, its flags alone say how it is changed. -/
theorem fields_cons (f : Field Value) (rest : List (Field Value)) (info : FieldInfo) (infos : List FieldInfo)
    (all : Bool) :
    fields leaf (f :: rest) (info :: infos) all = fieldIn leaf (visit info all) f :: fields leaf rest infos all := by
  cases f with
  | value v =>
    unfold visit
    rw [fields]
    split <;> rfl
  -- There is nothing to change in a field without a value.
  | null | absent => rfl

/-- The value is had back from what it is changed to, in either way. -/
def Restores (hide reveal : Value → Value) (v : Value) : Prop :=
  ∀ all, value reveal (value hide v all) all = v

theorem fields_fields {values : List (Field Value)} (each : ∀ v, .value v ∈ values → Restores hide reveal v)
    (infos : List FieldInfo) (all : Bool) : fields reveal (fields hide values infos all) infos all = values := by
  induction values generalizing infos with
  | nil => rfl
  | cons f rest ih =>
    have others := ih fun v member => each v (.tail _ member)
    cases infos with
    | nil => cases f <;> rfl
    | cons info infos =>
      -- The flags of the field alone decide whether it is passed over, so it is passed over both times or never.
      rw [fields_cons, fields_cons, others infos]
      cases f with
      | value v => cases way : visit info all <;> simp [fieldIn, valueIn, each v mem_cons_self _]
      | null | absent => rfl

theorem record_record_of {r : Record} (each : ∀ v, .value v ∈ r.fields → Restores hide reveal v) (all : Bool) :
    record reveal (record hide r all) all = r := by
  rcases r with ⟨layout, values⟩
  simp only [record]
  split
  · rw [fields_fields each]
  · rfl

/-- Both directions pass the same places, so the second one undoes the first. -/
theorem value_value (inverse : Undoes hide reveal) (v : Value) : Restores hide reveal v := by
  induction v using Value.induct with
  | scalar v plain => cases v <;> first | exact value_value_leaf inverse rfl | exact fun _ => rfl | cases plain
  | record r ih => exact fun all => by rw [value, value, record_record_of ih]
  | list vs ih =>
    intro all
    rw [value, value]
    congr 1
    induction vs with
    | nil => rfl
    | cons item rest later =>
      have others := later fun v member => ih v (.tail _ member)
      cases item with
      | none => rw [items, items, others]
      | some v => rw [items, items, others, ih v mem_cons_self all]
  | map es ih =>
    intro all
    rw [value, value]
    congr 1
    induction es with
    | nil => rfl
    | cons e rest later =>
      have others := later fun k v member => ih k v (.tail _ member)
      rcases e with ⟨k, _ | v⟩
      · rw [entries, entries, others]
      · rw [entries, entries, others, ih k v mem_cons_self all]

/-- A record that is shown again is as it was. -/
theorem record_record (inverse : Undoes hide reveal) (r : Record) (all : Bool) :
    record reveal (record hide r all) all = r :=
  record_record_of (fun v _ => value_value inverse v) all

end Redaction

/-- A record is as it was when what was hidden in it is shown again with the same mask, whatever layout it has, whatever
it holds, and whatever hash the mask works with. -/
theorem RecordOf.unredact_redact (r : Record) (m : Mask) : (r.redact m).unredact m = r :=
  Redaction.record_record (fun v leaf => ⟨m.isLeaf_redact leaf, m.unredact_redact_value v⟩) r false

end EntityGraph
