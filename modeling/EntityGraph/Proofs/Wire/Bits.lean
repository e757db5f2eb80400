import EntityGraph.Proofs.Wire.Basic
import Mathlib.Data.List.Induction
import Mathlib.Data.List.ModifyLast

/-! Signed integers and bits on machine words: shifts and masks give the numbers and bytes that are written. -/

namespace EntityGraph.Wire

open List

variable {bits : List Bool}

/-- Interleaving on words: the double, with all bits flipped if the number is negative. -/
def zigzagBits (n : Int64) : UInt64 :=
  ((n <<< 1) ^^^ (n >>> 63)).toUInt64

/-- Its inverse: the half, with all bits flipped if the number is odd. -/
def unzigzagBits (n : UInt64) : Int64 :=
  (n >>> 1).toInt64 ^^^ (-(n &&& 1)).toInt64

/-- A shift by all but one bit fills the word with the sign. -/
theorem sshiftRight_sign (x : BitVec 64) : x.sshiftRight 63 = if x.msb then BitVec.allOnes 64 else 0#64 := by
  have high : ∀ y : BitVec 64, y.msb = false → y >>> 63 = 0#64 := by
    intro y clear
    rw [BitVec.msb_eq_false_iff_two_mul_lt] at clear
    apply BitVec.eq_of_toNat_eq
    rw [BitVec.toNat_ushiftRight, Nat.shiftRight_eq_div_pow, BitVec.toNat_ofNat]
    omega
  cases sign : x.msb with
  | false =>
    rw [BitVec.sshiftRight_eq_of_msb_false sign, high x sign]
    rfl
  | true =>
    -- A negative number is shifted as the complement of a positive one.
    rw [BitVec.sshiftRight_eq_of_msb_true sign, high (~~~x) (by simp [sign])]
    rfl

/-- Shifts interleave signs as the arithmetic does. -/
theorem zigzag_eq_zigzagBits (n : Int64) : zigzag n = (zigzagBits n).toNat := by
  have word : (zigzagBits n).toNat = ((n.toBitVec <<< 1) ^^^ n.toBitVec.sshiftRight 63).toNat := by
    rw [zigzagBits, ← UInt64.toNat_toBitVec, Int64.toBitVec_toUInt64, Int64.toBitVec_xor, Int64.toBitVec_shiftLeft,
      Int64.toBitVec_shiftRight]
    rfl
  have value : n.toInt = n.toBitVec.toInt := rfl
  have less := n.toBitVec.isLt
  rw [word, zigzag, value, sshiftRight_sign, BitVec.toInt_eq_msb_cond]
  cases sign : n.toBitVec.msb with
  | false =>
    have small := BitVec.msb_eq_false_iff_two_mul_lt.mp sign
    simp only [Bool.false_eq_true, if_false, BitVec.xor_zero, BitVec.toNat_shiftLeft, Nat.shiftLeft_eq]
    rw [if_pos (by omega)]
    omega
  | true =>
    -- Flipping all bits of a number takes it away from the largest one.
    have large := BitVec.msb_eq_true_iff_two_mul_ge.mp sign
    simp only [if_true, BitVec.xor_allOnes, BitVec.toNat_not, BitVec.toNat_shiftLeft, Nat.shiftLeft_eq]
    rw [if_neg (by omega)]
    omega

/-- Shifts take signs apart as the arithmetic does. -/
theorem unzigzag_eq_unzigzagBits (n : UInt64) : unzigzag n.toNat = unzigzagBits n := by
  have low : (n &&& 1).toNat = n.toNat % 2 := by
    rw [UInt64.toNat_and]
    exact Nat.and_one_is_mod _
  have half : (n >>> 1).toInt64 = Int64.ofNat (n.toNat / 2) := by
    rw [← UInt64.toInt64_ofNat']
    apply congrArg UInt64.toInt64
    apply UInt64.toNat_inj.mp
    have less := n.toNat_lt
    rw [UInt64.toNat_shiftRight, UInt64.toNat_ofNat']
    simp only [UInt64.reduceToNat, Nat.shiftRight_eq_div_pow, Nat.reduceMod]
    omega
  rw [unzigzag, unzigzagBits, half]
  split
  · rename_i even
    have zero : n &&& 1 = 0 := UInt64.toNat_inj.mp (low.trans even)
    rw [zero, show (-0 : UInt64).toInt64 = 0 from rfl, Int64.xor_zero, Int64.ofInt_eq_ofNat]
  · -- The mask of an odd number flips all bits, which is one less than the negative.
    rename_i odd
    have one : n &&& 1 = 1 := UInt64.toNat_inj.mp (low.trans (Nat.mod_two_ne_zero.mp odd))
    have next : (n.toNat + 1) / 2 = n.toNat / 2 + 1 := by omega
    rw [one, show (-1 : UInt64).toInt64 = -1 from rfl, Int64.xor_neg_one, Int64.not_eq_neg_sub, next, Int64.ofInt_neg,
      Int64.ofInt_eq_ofNat, Int64.ofNat_add, Int64.neg_add]
    rfl

/-- Bytes that take bits one by one, with the number of bits. -/
structure BitWriter where
  bytes : List UInt8
  bits : Nat

/-- A bit goes above those of the last byte, or into a new byte if that is full. -/
def BitWriter.push (w : BitWriter) (bit : Bool) : BitWriter where
  bytes :=
    let bytes := if w.bits % 8 = 0 then w.bytes ++ [0] else w.bytes
    if bit then bytes.modifyLast (· ||| 1 <<< (w.bits % 8).toUInt8) else bytes
  bits := w.bits + 1

/-- The mask of a position has the bit there. -/
theorem toNat_mask {k : Nat} (room : k < 8) : (1 <<< k.toUInt8 : UInt8).toNat = 2 ^ k := by
  have every : ∀ k : Fin 8, (1 <<< k.val.toUInt8 : UInt8).toNat = 2 ^ k.val := by decide
  exact every ⟨k, room⟩

/-- A bit above the others of its byte is set by its mask. -/
theorem packByte_concat (room : bits.length < 8) (b : Bool) :
    packByte (bits ++ [b]) = if b then packByte bits ||| 1 <<< bits.length.toUInt8 else packByte bits := by
  have size : (bits ++ [b]).length ≤ 8 := by
    rw [length_append, length_singleton]
    omega
  apply UInt8.toNat_inj.mp
  apply Nat.eq_of_testBit_eq
  intro i
  rw [testBit_packByte size]
  -- Both bytes agree below the new bit, at it, and above it.
  cases b with
  | false =>
    simp only [Bool.false_eq_true, if_false]
    rw [testBit_packByte (Nat.le_of_lt room)]
    grind
  | true =>
    rw [if_pos rfl, UInt8.toNat_or, Nat.testBit_or, testBit_packByte (Nat.le_of_lt room), toNat_mask room,
      Nat.testBit_two_pow]
    grind

/-- Up to eight bits fill one byte after the full ones. -/
theorem BitWriter.foldl_push (w : BitWriter) (full : w.bits % 8 = 0) (room : bits.length ≤ 8) :
    bits.foldl push w = ⟨if bits = [] then w.bytes else w.bytes ++ [packByte bits], w.bits + bits.length⟩ := by
  -- The induction takes the last bit away, since each bit goes above those before it.
  induction bits using List.reverseRecOn with
  | nil => rfl
  | append_singleton bits b ih =>
    rw [length_append, length_singleton] at room
    have place : (w.bits + bits.length) % 8 = bits.length := by omega
    have opened : (if bits.length = 0 then (if bits = [] then w.bytes else w.bytes ++ [packByte bits]) ++ [0]
        else if bits = [] then w.bytes else w.bytes ++ [packByte bits]) = w.bytes ++ [packByte bits] := by
      cases bits with
      | nil => rfl
      | cons => simp
    rw [foldl_append, ih (by omega), foldl_cons, foldl_nil, push, place, opened,
      packByte_concat (by omega)]
    cases b with
    | false => simp [Nat.add_assoc]
    | true => simp [Nat.add_assoc, modifyLast_concat]

/-- Bits that are pushed one by one end in the bytes that pack them. -/
theorem bytes_foldl_push (bits : List Bool) : (bits.foldl BitWriter.push ⟨[], 0⟩).bytes = packBits bits := by
  have general : ∀ (bits : List Bool) (out : List UInt8) (w : BitWriter), w.bytes = out.reverse → w.bits % 8 = 0 →
      (bits.foldl BitWriter.push w).bytes = packInto out bits := by
    intro bits out
    induction out, bits using packInto.induct with
    | case1 out b0 b1 b2 b3 b4 b5 b6 b7 rest ih =>
      intro w bytes full
      have eight : [b0, b1, b2, b3, b4, b5, b6, b7].length ≤ 8 := by simp
      change (rest.foldl BitWriter.push ([b0, b1, b2, b3, b4, b5, b6, b7].foldl BitWriter.push w)).bytes = _
      rw [w.foldl_push full eight, packInto]
      refine ih _ ?_ ?_
      · simp [bytes]
      · simp [full]
    | case2 out =>
      intro w bytes _
      rw [packInto]
      exact bytes
    | case3 out bits many some =>
      intro w bytes full
      obtain ⟨count, last⟩ := packInto_last many some
      rw [w.foldl_push full (by omega), last, if_neg fun empty => some empty, bytes, reverse_cons]
  exact general bits [] ⟨[], 0⟩ rfl rfl

end EntityGraph.Wire
