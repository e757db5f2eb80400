import EntityGraph.Bytes.Utf8

/-! The bytes of a text, character by character. -/

namespace EntityGraph.Utf8

open List

variable {c : Char}

/-- The bytes of some characters. -/
def ofChars (cs : List Char) : List UInt8 :=
  cs.flatMap ofChar

theorem ofChar_eq (c : Char) : ofChar c = String.utf8EncodeChar c := by
  simp [ofChar, encode, List.utf8Encode]

/-- A text is encoded character by character. -/
theorem encode_ofList (cs : List Char) : encode (String.ofList cs) = ofChars cs := by
  simp [encode, ofChars, funext ofChar_eq, List.utf8Encode]

@[simp] theorem ofChars_nil : ofChars [] = [] := rfl

@[simp] theorem ofChars_cons (c : Char) (cs : List Char) : ofChars (c :: cs) = ofChar c ++ ofChars cs := rfl

@[simp] theorem ofChars_append (cs ds : List Char) : ofChars (cs ++ ds) = ofChars cs ++ ofChars ds :=
  flatMap_append

/-- An ASCII character is one byte. -/
theorem ofChar_narrow (narrow : c.toNat < 128) : ofChar c = [UInt8.ofNat c.toNat] := by
  rw [ofChar_eq, String.utf8EncodeChar.eq_1, if_pos (by change c.toNat ≤ 127; omega)]
  rfl

/-- The bytes of any other character all have their high bit set. -/
theorem high_of_mem_ofChar (wide : 128 ≤ c.toNat) {b : UInt8} (mem : b ∈ ofChar c) : 128 ≤ b.toNat := by
  have high : ∀ low n : Nat, 128 ≤ low → low < 256 → n + low < 256 → 128 ≤ (UInt8.ofNat (n + low)).toNat := by
    intro low n least most fits
    rw [UInt8.toNat_ofNat', Nat.mod_eq_of_lt fits]
    omega
  rw [ofChar_eq, String.utf8EncodeChar.eq_1, if_neg (by change ¬ c.toNat ≤ 127; omega)] at mem
  -- Two, three or four bytes: each is a remainder on top of a mark that is at least 128.
  split at mem
  · simp only [mem_cons, not_mem_nil, or_false] at mem
    rcases mem with rfl | rfl <;> exact high _ _ (by decide) (by decide) (by omega)
  · split at mem
    · simp only [mem_cons, not_mem_nil, or_false] at mem
      rcases mem with rfl | rfl | rfl <;> exact high _ _ (by decide) (by decide) (by omega)
    · simp only [mem_cons, not_mem_nil, or_false] at mem
      rcases mem with rfl | rfl | rfl | rfl <;> exact high _ _ (by decide) (by decide) (by omega)

/-- Every character takes a byte or more. -/
theorem length_le_ofChars (cs : List Char) : cs.length ≤ (ofChars cs).length := by
  induction cs with
  | nil => exact Nat.le_refl _
  | cons c cs ih =>
    have := String.length_utf8EncodeChar c
    have := c.utf8Size_pos
    rw [ofChars_cons, length_append, ofChar_eq, length_cons]
    omega

end EntityGraph.Utf8
