import EntityGraph.Proofs.Except
import EntityGraph.Wire.Basic
import Mathlib.Algebra.Group.Nat.Defs
import Mathlib.Data.List.Basic

/-! What is written reads back: integers, texts, doubles and bits.

Bytes may follow what was written, since a value is rarely the last one. A reader keeps limits that a writer does not
know, so the laws say which limits those are. -/

namespace EntityGraph.Wire

open List

variable {bits : List Bool}

/-- A reader that gets through these bytes gives the value and leaves what follows them. Where the limits are sharp, it
gets through exactly if the limits are kept. -/
structure Reader.Takes {α : Type} (reader : Reader α) (bytes : List UInt8) (sharp limits : Prop) (a : α) : Prop where
  recovers : ∀ rest b left, reader (bytes ++ rest) = .ok b left → b = a ∧ left = rest
  passes : sharp → ∀ rest, (∃ b left, reader (bytes ++ rest) = .ok b left) ↔ limits

namespace Reader.Takes

variable {α β : Type} {reader : Reader α} {next : α → Reader β} {bytes more : List UInt8}
  {sharp sharp' limits limits' : Prop} {a : α} {b : β}

theorem pure (a : α) : Takes (Pure.pure a) [] sharp True a where
  recovers rest b left run := by
    cases run
    exact ⟨rfl, rfl⟩
  passes _ rest := iff_of_true ⟨a, rest, rfl⟩ trivial

theorem throw (e : DecodeError) (bytes : List UInt8) (a : α) : Takes (MonadExcept.throw e) bytes sharp False a where
  recovers rest b left run := by cases run
  passes _ rest := by
    refine iff_of_false ?_ id
    rintro ⟨b, left, run⟩
    cases run

/-- Limits may be said in other words. -/
theorem congr (taken : Takes reader bytes sharp limits a) (same : sharp → (limits ↔ limits')) :
    Takes reader bytes sharp limits' a :=
  ⟨taken.recovers, fun here rest => (taken.passes here rest).trans (same here)⟩

/-- Limits need not be sharp. -/
theorem mono (taken : Takes reader bytes sharp limits a) (less : sharp' → sharp) : Takes reader bytes sharp' limits a :=
  ⟨taken.recovers, fun here => taken.passes (less here)⟩

/-- What one reader leaves is what the next one reads, and both have limits. -/
theorem bind (first : Takes reader bytes sharp limits a) (second : Takes (next a) more sharp limits' b) :
    Takes (reader >>= next) (bytes ++ more) sharp (limits ∧ limits') b where
  recovers rest c left run := by
    rw [append_assoc] at run
    -- The second reader runs only if the first one succeeds, and then on what follows the first part.
    obtain ⟨a', middle, result, run⟩ := EStateM.bind_eq_ok.mp run
    obtain ⟨rfl, rfl⟩ := first.recovers _ _ _ result
    exact second.recovers _ _ _ run
  passes here rest := by
    rw [append_assoc]
    constructor
    · rintro ⟨c, left, run⟩
      obtain ⟨a', middle, result, run⟩ := EStateM.bind_eq_ok.mp run
      obtain ⟨rfl, rfl⟩ := first.recovers _ _ _ result
      exact ⟨(first.passes here _).mp ⟨_, _, result⟩, (second.passes here rest).mp ⟨c, left, run⟩⟩
    · rintro ⟨kept, kept'⟩
      obtain ⟨a', middle, result⟩ := (first.passes here (more ++ rest)).mpr kept
      obtain ⟨rfl, rfl⟩ := first.recovers _ _ _ result
      obtain ⟨c, left, run⟩ := (second.passes here rest).mpr kept'
      exact ⟨c, left, EStateM.bind_eq_ok.mpr ⟨_, _, result, run⟩⟩

/-- Two readers one after the other take what two writers wrote. -/
theorem andThen (first : Takes reader bytes sharp True a) (second : Takes (next a) more sharp limits b) :
    Takes (reader >>= next) (bytes ++ more) sharp limits b :=
  (first.bind second).congr fun _ => and_iff_right trivial

theorem map (f : α → β) (first : Takes reader bytes sharp limits a) :
    Takes (f <$> reader) bytes sharp limits (f a) := by
  rw [← append_nil bytes]
  exact (first.bind (pure (f a))).congr fun _ => and_iff_left trivial

/-- A check before a reader is one more limit. -/
theorem check {refused : Prop} [Decidable refused] (e : DecodeError) (passed : Takes reader bytes sharp limits a) :
    Takes (if refused then MonadExcept.throw e else reader) bytes sharp (¬ refused ∧ limits) a := by
  split
  · rename_i no
    exact (throw e bytes a).congr fun _ => iff_of_false id fun both => both.1 no
  · rename_i yes
    exact passed.congr fun _ => (and_iff_right yes).symm

/-- A reader whose limits are kept gets through. -/
theorem run (taken : Takes reader bytes True limits a) (kept : limits) (rest : List UInt8) :
    reader (bytes ++ rest) = .ok a rest := by
  obtain ⟨b, left, result⟩ := (taken.passes trivial rest).mpr kept
  obtain ⟨rfl, rfl⟩ := taken.recovers rest b left result
  exact result

end Reader.Takes

namespace Reader

open Takes

variable {n limit : Nat}

theorem bind_eq {α β : Type} {reader : Reader α} {next : α → Reader β} {bytes rest : List UInt8} {a : α}
    (run : reader bytes = .ok a rest) : (reader >>= next) bytes = next a rest := by
  change EStateM.bind reader next bytes = _
  rw [EStateM.bind, run]

variable {sharp : Prop}

/-- A byte is read as it is. -/
theorem byte_takes (context : String) (b : UInt8) : Takes (byte context) [b] sharp True b where
  recovers rest c left run := by
    cases run
    exact ⟨rfl, rfl⟩
  passes _ rest := iff_of_true ⟨b, rest, rfl⟩ trivial

/-- As many bytes as were written are the ones that were written. -/
theorem take_takes (context : String) {bytes : List UInt8} (size : bytes.length = n) :
    Takes (take n context) bytes sharp True bytes := by
  subst size
  have run : ∀ rest, take bytes.length context (bytes ++ rest) = .ok bytes rest := by simp [take]
  refine ⟨fun rest b left result => ?_, fun _ rest => iff_of_true ⟨bytes, rest, run rest⟩ trivial⟩
  rw [run] at result
  cases result
  exact ⟨rfl, rfl⟩

theorem bool_takes (context : String) (b : Bool) : Takes (bool context) [Wire.bool b] sharp True b := by
  -- Two values, two bytes, and each byte is told from the other.
  rw [← append_nil [_]]
  refine (byte_takes context _).andThen ?_
  cases b
  · exact pure false
  · exact pure true

/-- A number below 128 is the last group. -/
theorem last_group (small : n < 128) : n.toUInt8.toNat % 128 = n ∧ n.toUInt8 < 128 := by
  rw [UInt8.lt_iff_toNat_lt]
  simp only [Nat.toUInt8, UInt8.toNat_ofNat', UInt8.reduceToNat]
  omega

/-- Any other group has its mark. -/
theorem inner_group (n : Nat) : (n % 128 + 128).toUInt8.toNat % 128 = n % 128 ∧ ¬ (n % 128 + 128).toUInt8 < 128 := by
  rw [UInt8.lt_iff_toNat_lt]
  simp only [Nat.toUInt8, UInt8.toNat_ofNat', UInt8.reduceToNat]
  omega

/-- What groups hold is a multiple of sixty-four, if there are any. -/
theorem pow_eq_or (left : Nat) : left = 0 ∨ ∃ half, 0 < left ∧ 0 < half ∧ 128 ^ left = 64 * half := by
  cases left with
  | zero => exact Or.inl rfl
  | succ left =>
    have positive : 0 < 128 ^ left := Nat.pow_pos (by decide)
    exact Or.inr ⟨2 * 128 ^ left, by omega, by omega, by rw [Nat.pow_succ]; omega⟩

/-- Each group holds seven bits, but the last one that is allowed holds only one. -/
theorem groups_takes (context : String) (left n : Nat) :
    Takes (groups context left) (Wire.varint n) sharp (0 < left ∧ 64 * n < 128 ^ left) n := by
  induction left generalizing n with
  | zero => exact (throw _ _ _).congr fun _ => by simp
  | succ left ih =>
    have room := pow_eq_or left
    unfold Wire.varint
    split
    · -- The last group: its byte is the number. If no more are allowed, it may hold one bit.
      rename_i small
      obtain ⟨low, last⟩ := last_group small
      have run : Takes (groups context (left + 1)) ([n.toUInt8] ++ []) sharp (¬ (left = 0 ∧ 1 < n) ∧ True) n := by
        unfold groups
        refine (byte_takes context _).andThen ?_
        simp only [low, last, if_true]
        exact (pure n).check _
      refine run.congr fun _ => ?_
      rw [Nat.pow_succ, and_true]
      rcases room with rfl | ⟨half, others, positive, same⟩
      · omega
      · rw [same]
        omega
    · -- Seven bits are in the first group, and the induction is about those behind.
      rename_i large
      obtain ⟨low, more⟩ := inner_group n
      have others := (ih (n / 128)).map fun high => n % 128 + 128 * high
      rw [show n % 128 + 128 * (n / 128) = n by omega] at others
      have run : Takes (groups context (left + 1)) ([(n % 128 + 128).toUInt8] ++ Wire.varint (n / 128)) sharp
          (¬ (left = 0 ∧ 1 < n % 128) ∧ 0 < left ∧ 64 * (n / 128) < 128 ^ left) n := by
        unfold groups
        refine (byte_takes context _).andThen ?_
        simp only [low, more, if_false]
        exact others.check _
      refine run.congr fun _ => ?_
      rw [Nat.pow_succ]
      rcases room with rfl | ⟨half, others, positive, same⟩
      · simp only [Nat.pow_zero]
        omega
      · rw [same]
        omega

/-- A number reads back if it has at most 64 bits. -/
theorem varint_takes (context : String) (n : Nat) : Takes (varint context) (Wire.varint n) sharp (n < UInt64.size) n :=
  (groups_takes context Limits.varintGroups n).congr fun _ => by simp only [Limits.varintGroups, UInt64.size]; omega

/-- A length reads back up to its limit. -/
theorem length_takes (field : String) (n : Nat) (small : limit < UInt64.size) :
    Takes (length limit field) (Wire.varint n) sharp (n ≤ limit) n := by
  rw [← append_nil (Wire.varint n)]
  exact ((varint_takes field n).bind ((pure n).check _)).congr fun _ => by rw [and_true]; omega

/-- A signed integer comes back from its interleaved form. -/
theorem unzigzag_zigzag (n : Int64) : unzigzag (zigzag n) = n := by
  unfold zigzag unzigzag
  by_cases positive : 0 ≤ n.toInt
  · have even : 2 * n.toInt.toNat % 2 = 0 := by omega
    have half : ((2 * n.toInt.toNat / 2 : Nat) : Int) = n.toInt := by omega
    rw [if_pos positive, if_pos even, half, Int64.ofInt_toInt]
  · -- A negative number becomes odd, and the number below it halves to its magnitude.
    have odd : ¬ (2 * (-n.toInt).toNat - 1) % 2 = 0 := by omega
    have half : (-((2 * (-n.toInt).toNat - 1 + 1) / 2 : Nat) : Int) = n.toInt := by omega
    rw [if_neg positive, if_neg odd, half, Int64.ofInt_toInt]

/-- Every signed number reads back. -/
theorem signed_takes (context : String) (n : Int64) : Takes (signed context) (Wire.varint (zigzag n)) sharp True n := by
  have low : -(2 ^ 63) ≤ n.toInt := n.le_toInt
  have high : n.toInt < 2 ^ 63 := n.toInt_lt
  -- Folding the sign in takes one bit, so the number stays within sixty-four.
  have small : zigzag n < UInt64.size := by
    unfold zigzag UInt64.size
    split <;> omega
  have run : Takes (signed context) (Wire.varint (zigzag n)) sharp True (unzigzag (zigzag n)) :=
    ((varint_takes context (zigzag n)).map unzigzag).congr fun _ => iff_of_true small trivial
  rwa [unzigzag_zigzag] at run

/-- Bytes read back up to the limit of their length. -/
theorem prefixed_takes (field : String) (bytes : List UInt8) (small : limit < UInt64.size) :
    Takes (prefixed limit field) (Wire.prefixed bytes) sharp (bytes.length ≤ limit) bytes :=
  ((length_takes field bytes.length small).bind (take_takes field rfl)).congr fun _ => and_iff_left trivial

/-- A text is valid UTF-8. -/
theorem decode?_encode (s : String) : Utf8.decode? (Utf8.encode s) = some s := by
  have valid : s.toByteArray.IsValidUTF8 := s.isValidUTF8
  have bytes : (⟨s.toByteArray.data.toList.toArray⟩ : ByteArray) = s.toByteArray := by simp
  unfold Utf8.decode? Utf8.encode
  -- The bytes of a text are valid, so the check lets them pass.
  rw [bytes, String.fromUTF8?, dif_pos valid]
  rfl

theorem length_encode (s : String) : (Utf8.encode s).length = s.utf8ByteSize := by
  simp [Utf8.encode]

/-- A text reads back up to its limit. -/
theorem text_takes (field : String) (s : String) (small : limit < UInt64.size) :
    Takes (text limit field) (Wire.text s) sharp (s.utf8ByteSize ≤ limit) s := by
  rw [← append_nil (Wire.text s), ← length_encode]
  refine ((prefixed_takes field (Utf8.encode s) small).bind ?_).congr fun _ => and_iff_left trivial
  -- The bytes were written as text, so they are read as such.
  rw [decode?_encode]
  exact pure s

theorem length_littleEndian (width n : Nat) : (littleEndian width n).length = width := by
  induction width generalizing n with
  | zero => rfl
  | succ width ih => simp [littleEndian, ih]

/-- Bytes with the lowest first give a number back as far as they reach. -/
theorem ofLittleEndian_littleEndian (width n : Nat) : ofLittleEndian (littleEndian width n) = n % 256 ^ width := by
  induction width generalizing n with
  | zero => simp [littleEndian, ofLittleEndian, Nat.mod_one]
  | succ width ih =>
    -- The first byte is the remainder, and the others are those of the quotient.
    have low : n.toUInt8.toNat = n % 256 := by simp [Nat.toUInt8]
    rw [littleEndian, ofLittleEndian, ih, low, Nat.pow_succ, Nat.mul_comm (256 ^ width), Nat.mod_mul]

/-- A double reads back bit for bit. -/
theorem double_takes (context : String) (x : Double) : Takes (double context) (Wire.double x) sharp True x := by
  have run : Takes (double context) (Wire.double x) sharp True ⟨(ofLittleEndian (Wire.double x)).toUInt64⟩ :=
    (take_takes context (length_littleEndian 8 x.bits.toNat)).map _
  -- Sixty-four bits fill eight bytes, so nothing is cut off.
  have small : x.bits.toNat < 256 ^ 8 := x.bits.toNat_lt
  have whole : (ofLittleEndian (littleEndian 8 x.bits.toNat)).toUInt64 = x.bits := by
    rw [ofLittleEndian_littleEndian, Nat.mod_eq_of_lt small]
    exact UInt64.ofNat_toNat
  rwa [Wire.double, whole] at run

end Reader

/-- Bits that are not there are zero. -/
theorem toNat_packByte_lt (bits : List Bool) : (packByte bits).toNat < 2 ^ bits.length := by
  induction bits with
  | nil => simp [packByte]
  | cons b rest ih =>
    -- Wrapping around only makes a byte smaller.
    have low : (bool b).toNat ≤ 1 := by cases b <;> simp [bool]
    have twice := Nat.mod_le (2 * (packByte rest).toNat) (2 ^ 8)
    rw [packByte, UInt8.toNat_add, UInt8.toNat_mul, length_cons, Nat.pow_succ]
    refine Nat.lt_of_le_of_lt (Nat.mod_le _ _) ?_
    simp only [UInt8.reduceToNat]
    omega

/-- Up to eight bits fit a byte, so putting one below the others loses nothing. -/
theorem toNat_packByte (b : Bool) {rest : List Bool} (room : rest.length < 8) :
    (packByte (b :: rest)).toNat = b.toNat + 2 * (packByte rest).toNat := by
  have small := toNat_packByte_lt rest
  have bound : 2 ^ rest.length ≤ 2 ^ 7 := Nat.pow_le_pow_right (by decide) (by omega)
  have low : (bool b).toNat = b.toNat := by cases b <;> rfl
  have one : b.toNat ≤ 1 := Bool.toNat_le b
  rw [packByte, UInt8.toNat_add, UInt8.toNat_mul, low]
  simp only [UInt8.reduceToNat]
  omega

/-- Every bit of a byte is where it was put, and the bits that were not put are zero. -/
theorem testBit_packByte (room : bits.length ≤ 8) (i : Nat) :
    (packByte bits).toNat.testBit i = bits[i]?.getD false := by
  induction bits generalizing i with
  | nil => simp [packByte]
  | cons b rest ih =>
    rw [length_cons] at room
    rw [toNat_packByte b (by omega)]
    cases i with
    | zero => cases b <;> simp
    | succ i =>
      -- Halving drops the lowest bit.
      have half : (b.toNat + 2 * (packByte rest).toNat) / 2 = (packByte rest).toNat := by
        have one : b.toNat ≤ 1 := Bool.toNat_le b
        omega
      rw [Nat.testBit_succ, half, ih (by omega), getElem?_cons_succ]

/-- Bits come back from a byte, with zeros behind them. -/
theorem unpackByte_packByte (room : bits.length ≤ 8) :
    unpackByte (packByte bits) = bits ++ List.replicate (8 - bits.length) false := by
  apply ext_getElem?
  intro i
  unfold unpackByte
  by_cases small : i < 8
  · -- A bit that was put is read there, and behind the last one there are zeros.
    rw [getElem?_map, getElem?_range small, Option.map_some, testBit_packByte room]
    by_cases inside : i < bits.length
    · rw [getElem?_append_left inside, getElem?_eq_getElem inside, Option.getD_some]
    · rw [getElem?_append_right (by omega), getElem?_eq_none (by omega), getElem?_replicate]
      rw [if_pos (by omega), Option.getD_none]
  · rw [getElem?_eq_none (by simpa using small), getElem?_eq_none (by simp; omega)]

theorem unpackBits_append (front back : List UInt8) :
    unpackBits (front ++ back) = unpackBits front ++ unpackBits back :=
  flatMap_append

/-- As many bits as are missing in the last byte. -/
def padding (bits : List Bool) : List Bool :=
  List.replicate ((8 - bits.length % 8) % 8) false

/-- Fewer than eight bits that are left, and at least one, fill the last byte. -/
theorem packInto_last {out : List UInt8}
    (many : ∀ b0 b1 b2 b3 b4 b5 b6 b7 rest, bits = b0 :: b1 :: b2 :: b3 :: b4 :: b5 :: b6 :: b7 :: rest → False)
    (some : bits = [] → False) :
    (0 < bits.length ∧ bits.length < 8) ∧ packInto out bits = (packByte bits :: out).reverse := by
  constructor
  · match bits, many, some with
    | [], _, some => exact absurd rfl some
    | [_], _, _ | [_, _], _, _ | [_, _, _], _, _ | [_, _, _, _], _, _ | [_, _, _, _, _], _, _
    | [_, _, _, _, _, _], _, _ | [_, _, _, _, _, _, _], _, _ => simp
    | _ :: _ :: _ :: _ :: _ :: _ :: _ :: _ :: _, many, _ => exact absurd rfl (many _ _ _ _ _ _ _ _ _)
  · unfold packInto
    split
    · exact absurd rfl (many _ _ _ _ _ _ _ _ _)
    · exact absurd rfl some
    · rfl

/-- Bits come back from their bytes, with zeros behind them up to the end of the last byte. -/
theorem unpackBits_packBits (bits : List Bool) :
    unpackBits (packBits bits) = bits ++ padding bits ∧ (packBits bits).length = (bits.length + 7) / 8 := by
  -- Bytes that are already packed stay in front.
  have general : ∀ (bits : List Bool) (out : List UInt8),
      unpackBits (packInto out bits) = unpackBits out.reverse ++ (bits ++ padding bits) ∧
        (packInto out bits).length = out.length + (bits.length + 7) / 8 := by
    intro bits out
    induction out, bits using packInto.induct with
    | case1 out b0 b1 b2 b3 b4 b5 b6 b7 rest ih =>
      -- Eight bits fill a byte, which joins those already packed.
      obtain ⟨bytes, size⟩ := ih
      have first : unpackBits [packByte [b0, b1, b2, b3, b4, b5, b6, b7]] = [b0, b1, b2, b3, b4, b5, b6, b7] := by
        have eight : [b0, b1, b2, b3, b4, b5, b6, b7].length ≤ 8 := by simp
        simpa [unpackBits] using unpackByte_packByte eight
      have same : padding (b0 :: b1 :: b2 :: b3 :: b4 :: b5 :: b6 :: b7 :: rest) = padding rest := by
        simp only [padding, length_cons, Nat.add_assoc, Nat.reduceAdd, Nat.add_mod_right]
      constructor
      · rw [packInto, bytes, reverse_cons, unpackBits_append, first, append_assoc, same]
        rfl
      · rw [packInto, size]
        simp only [length_cons]
        omega
    | case2 out => simp [packInto, padding]
    | case3 out bits many some =>
      obtain ⟨count, last⟩ := packInto_last many some
      constructor
      · rw [last, reverse_cons, unpackBits_append, padding, Nat.mod_eq_of_lt count.2,
          Nat.mod_eq_of_lt (Nat.sub_lt (by decide) count.1), ← unpackByte_packByte (by omega)]
        simp [unpackBits]
      · rw [last, length_reverse, length_cons]
        omega
  simpa [packBits, unpackBits] using general bits []

end EntityGraph.Wire
