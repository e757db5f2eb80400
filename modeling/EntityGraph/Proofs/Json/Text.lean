import EntityGraph.Json.Writer
import EntityGraph.Proofs.Number.Text
import EntityGraph.Proofs.Wire.Basic

/-! The text of a document is read back token by token.

Whatever follows the text is left, as long as it cannot be taken for the rest of a number. -/

namespace EntityGraph

open List

variable {b : UInt8}

namespace Scan

variable {n : Nat}

/-- The pieces that a character is read as. -/
def charPieces (c : Char) : List Piece :=
  if c.toNat < 32 ∧ c.toNat ≠ 8 ∧ c.toNat ≠ 9 ∧ c.toNat ≠ 10 ∧ c.toNat ≠ 12 ∧ c.toNat ≠ 13 then [.unit c.toNat]
  else (Utf8.ofChar c).map .byte

/-- Bytes that are no quote, no backslash and no control character are taken as they stand. -/
theorem pieces?_bytes {bytes : List UInt8} (ordinary : ∀ b ∈ bytes, b ≠ 0x22 ∧ b ≠ 0x5c ∧ 0x20 ≤ b)
    (before : List Piece) (rest : List UInt8) :
    pieces? before (bytes ++ rest) = pieces? ((bytes.map Piece.byte).reverse ++ before) rest := by
  induction bytes generalizing before with
  | nil => rfl
  | cons b bytes ih =>
    obtain ⟨quote, backslash, visible⟩ := ordinary b mem_cons_self
    rw [cons_append, pieces?.eq_def]
    simp only [beq_iff_eq, quote, backslash, if_false, UInt8.not_lt.mpr visible]
    rw [ih fun c mem => ordinary c (.tail _ mem)]
    simp

/-- The hexadecimal digits of a control character are read as its number. -/
theorem hexUnit?_hexChar (small : n < 32) :
    hexUnit? 0x30 0x30 (UInt8.ofNat (Json.hexChar (n / 16)).toNat) (UInt8.ofNat (Json.hexChar (n % 16)).toNat) =
      some n := by
  -- There are thirty-two of them, and each is computed.
  have all : ∀ n : Fin 32, hexUnit? 0x30 0x30 (UInt8.ofNat (Json.hexChar (n.val / 16)).toNat)
      (UInt8.ofNat (Json.hexChar (n.val % 16)).toNat) = some n.val := by decide +kernel
  exact all ⟨n, small⟩

theorem toNat_hexChar (small : n < 16) : (Json.hexChar n).toNat < 128 := by
  have all : ∀ n : Fin 16, (Json.hexChar n.val).toNat < 128 := by decide +kernel
  exact all ⟨n, small⟩

theorem pieces?_short {letter : UInt8} (known : escaped? letter = some b) (plain : letter ≠ 0x75) (before : List Piece)
    (rest : List UInt8) : pieces? before (0x5c :: letter :: rest) = pieces? (.byte b :: before) rest := by
  rw [pieces?.eq_def]
  simp [known, plain]

/-- A character that is written as it is has no byte that needs an escape. -/
theorem ordinary_ofChar {c : Char} (quote : c ≠ '"') (backslash : c ≠ '\\') (visible : 32 ≤ c.toNat) :
    ∀ b ∈ Utf8.ofChar c, b ≠ 0x22 ∧ b ≠ 0x5c ∧ 0x20 ≤ b := by
  intro b mem
  -- A character of one byte is that byte; of a wider one no byte is as low as the marks.
  by_cases narrow : c.toNat < 128
  · rw [Utf8.ofChar_narrow narrow, mem_singleton] at mem
    subst mem
    have value : (UInt8.ofNat c.toNat).toNat = c.toNat := by rw [UInt8.toNat_ofNat', Nat.mod_eq_of_lt (by omega)]
    refine ⟨fun same => ?_, fun same => ?_, ?_⟩
    · rw [same] at value
      exact quote (Char.toNat_inj.mp value.symm)
    · rw [same] at value
      exact backslash (Char.toNat_inj.mp value.symm)
    · rw [UInt8.le_iff_toNat_le, value]
      exact visible
  · -- All bytes of a wide character have the topmost bit.
    have high := Utf8.high_of_mem_ofChar (by omega) mem
    refine ⟨?_, ?_, ?_⟩
    · rintro rfl
      simp at high
    · rintro rfl
      simp at high
    · rw [UInt8.le_iff_toNat_le]
      exact Nat.le_trans (by decide) high

/-- The text between quotes is read character by character. -/
theorem pieces?_escape (c : Char) (before : List Piece) (rest : List UInt8) :
    pieces? before (Utf8.ofChars (Json.escape c) ++ rest) = pieces? ((charPieces c).reverse ++ before) rest := by
  -- The letters of short escapes, each with the byte that it stands for.
  have short : ∀ letter b, escaped? letter = some b → letter ≠ 0x75 → charPieces c = [.byte b] →
      pieces? before ([0x5c, letter] ++ rest) = pieces? ((charPieces c).reverse ++ before) rest := by
    intro letter b known plain read
    rw [read]
    exact pieces?_short known plain before rest
  -- From here on the cases are those of the writer, in its order.
  unfold Json.escape
  split
  · rename_i quote
    subst quote
    exact short 0x22 0x22 (by decide) (by decide) (by decide)
  split
  · rename_i backslash
    subst backslash
    exact short 0x5c 0x5c (by decide) (by decide) (by decide)
  split
  · rename_i quote backslash visible
    have read : charPieces c = (Utf8.ofChar c).map .byte := if_neg (by omega)
    rw [read, Utf8.ofChars_cons, Utf8.ofChars_nil, append_nil]
    exact pieces?_bytes (ordinary_ofChar quote backslash visible) before rest
  -- What is left are control characters, five of them with a letter of their own.
  rename_i control
  have chosen : ∀ n, c.toNat = n → c = Char.ofNat n := fun n same => by rw [← same, Char.ofNat_toNat]
  split
  · rename_i same
    obtain rfl := chosen 8 same
    exact short 0x62 8 (by decide) (by decide) (by decide)
  split
  · rename_i same
    obtain rfl := chosen 9 same
    exact short 0x74 9 (by decide) (by decide) (by decide)
  split
  · rename_i same
    obtain rfl := chosen 10 same
    exact short 0x6e 10 (by decide) (by decide) (by decide)
  split
  · rename_i same
    obtain rfl := chosen 12 same
    exact short 0x66 12 (by decide) (by decide) (by decide)
  split
  · rename_i same
    obtain rfl := chosen 13 same
    exact short 0x72 13 (by decide) (by decide) (by decide)
  · -- Any other control character is written by its number.
    have read : charPieces c = [.unit c.toNat] := if_pos (by omega)
    have bytes : Utf8.ofChars ['\\', 'u', '0', '0', Json.hexChar (c.toNat / 16), Json.hexChar (c.toNat % 16)] =
        [0x5c, 0x75, 0x30, 0x30, UInt8.ofNat (Json.hexChar (c.toNat / 16)).toNat,
          UInt8.ofNat (Json.hexChar (c.toNat % 16)).toNat] := by
      simp only [Utf8.ofChars_cons, Utf8.ofChars_nil,
        Utf8.ofChar_narrow (toNat_hexChar (show c.toNat / 16 < 16 by omega)),
        Utf8.ofChar_narrow (toNat_hexChar (show c.toNat % 16 < 16 by omega))]
      rfl
    rw [read, bytes, cons_append, pieces?.eq_def]
    simp [hexUnit?_hexChar (show c.toNat < 32 by omega)]

theorem pieces?_text (cs : List Char) (before : List Piece) (rest : List UInt8) :
    pieces? before (Utf8.ofChars (cs.flatMap Json.escape) ++ 0x22 :: rest) =
      some (before.reverse ++ cs.flatMap charPieces, rest) := by
  induction cs generalizing before with
  | nil =>
    -- The closing quote ends the pieces.
    rw [flatMap_nil, Utf8.ofChars_nil, nil_append, pieces?.eq_def]
    simp
  | cons c cs ih =>
    rw [flatMap_cons, Utf8.ofChars_append, append_assoc, pieces?_escape, ih]
    simp

/-- A unit outside the surrogates stands for one character, whatever follows. -/
theorem pieceBytes?_unit (plain : n < 0xd800) (before : List UInt8) (rest : List Piece) :
    pieceBytes? before (.unit n :: rest) = pieceBytes? ((Utf8.ofChar (Char.ofNat n)).reverse ++ before) rest := by
  -- The reader looks for a pair of units, and one outside the surrogates is never part of a pair.
  rw [pieceBytes?.eq_def]
  split
  · rename_i same
    cases same
  · rename_i same
    cases same
  · rename_i same
    cases same
    rw [if_neg (by omega), if_neg (by omega)]
  · rename_i same
    cases same
    rw [if_neg (by omega)]

theorem pieceBytes?_bytes (bytes before : List UInt8) (rest : List Piece) :
    pieceBytes? before (bytes.map Piece.byte ++ rest) = pieceBytes? (bytes.reverse ++ before) rest := by
  induction bytes generalizing before with
  | nil => rfl
  | cons b bytes ih =>
    rw [map_cons, cons_append, pieceBytes?.eq_def]
    simp [ih]

theorem pieceBytes?_char (c : Char) (before : List UInt8) (rest : List Piece) :
    pieceBytes? before (charPieces c ++ rest) = pieceBytes? ((Utf8.ofChar c).reverse ++ before) rest := by
  unfold charPieces
  split
  · rw [singleton_append, pieceBytes?_unit (by omega), Char.ofNat_toNat]
  · exact pieceBytes?_bytes (Utf8.ofChar c) before rest

theorem pieceBytes?_text (cs : List Char) (before : List UInt8) :
    pieceBytes? before (cs.flatMap charPieces) = some (before.reverse ++ Utf8.ofChars cs) := by
  induction cs generalizing before with
  | nil =>
    rw [flatMap_nil, pieceBytes?.eq_def]
    simp
  | cons c cs ih =>
    rw [flatMap_cons, Utf8.ofChars_cons, pieceBytes?_char, ih]
    simp

/-- A string is read back from its text. -/
theorem string?_text (s : String) (rest : List UInt8) :
    string? (Utf8.ofChars (s.toList.flatMap Json.escape) ++ 0x22 :: rest) = some (some s, rest) := by
  unfold string?
  rw [pieces?_text]
  simp only [Option.bind_eq_bind, Option.bind_some, pieceText?, reverse_nil, nil_append, pieceBytes?_text]
  -- The bytes that were gathered are those of the string, and decode to it.
  rw [← Utf8.encode_ofList, String.ofList_toList, Wire.Reader.decode?_encode]
  rfl

theorem ofChars_stringChars (s : String) (rest : List UInt8) : Utf8.ofChars (Json.stringChars s) ++ rest =
    0x22 :: (Utf8.ofChars (s.toList.flatMap Json.escape) ++ 0x22 :: rest) := by
  simp [Json.stringChars, show Utf8.ofChar '"' = [0x22] by decide]

end Scan

/-- The literal that a number is written as. -/
def Number.literal : Number → Literal
  | .integer n => ⟨decide (n < 0), n.natAbs, 0, 0, true⟩
  | .double x => Decimal.literal Json.doubleFormat x.negative (Shortest.digits Json.doubleFormat.tie x)

namespace Json

mutual

/-- The tokens that a document is written as. -/
def tokens : Json → TokenTree
  | .null => .null
  | .bool b => .bool b
  | .number n => .number n.literal
  | .string s => .string (some s)
  | .array items => .array (itemTokens items) true
  | .object members => .object (memberTokens members) true

/-- The tokens of the items. -/
def itemTokens : List Json → List TokenTree
  | [] => []
  | j :: rest => j.tokens :: itemTokens rest

/-- The tokens of the members' values. -/
def memberTokens : List (String × Json) → List (Option String × TokenTree)
  | [] => []
  | (k, j) :: rest => (some k, j.tokens) :: memberTokens rest

end

end Json

namespace Scan

variable {negative : Bool} {bytes : List UInt8} {magnitude : List Char} {l : Literal} {fuel : Nat} {tree : TokenTree}

/-- The text starts with a byte that is no blank and does not close an array. -/
def Starts (bytes : List UInt8) : Prop :=
  ∃ b more, bytes = b :: more ∧ isBlank b = false ∧ b ≠ 0x5d

/-- What is read as a number starts with a digit. -/
theorem isDigit_of_number? {result : Literal × List UInt8} (read : number? negative bytes = some result) :
    ∃ b more, bytes = b :: more ∧ isDigit b = true := by
  cases bytes with
  | nil => cases read
  | cons b more =>
    refine ⟨b, more, rfl, ?_⟩
    -- Without a digit there is no whole part.
    by_contra other
    have nothing : someDigits? (b :: more) = none := by simp [someDigits?, other]
    unfold number? wholeDigits? at read
    rw [nothing] at read
    cases read

/-- A digit is none of the bytes that other values start with. -/
theorem not_marks_of_isDigit (digit : isDigit b = true) :
    isBlank b = false ∧ b ≠ 0x5d ∧ b ≠ 0x5b ∧ b ≠ 0x7b ∧ b ≠ 0x22 ∧ b ≠ 0x6e ∧ b ≠ 0x74 ∧ b ≠ 0x66 ∧ b ≠ 0x2d := by
  refine ⟨?_, ?_, ?_, ?_, ?_, ?_, ?_, ?_, ?_⟩
  · by_contra blank
    simp only [isBlank, Bool.not_eq_false, Bool.or_eq_true, beq_iff_eq] at blank
    rcases blank with ((rfl | rfl) | rfl) | rfl <;> cases digit
  all_goals
    rintro rfl
    cases digit

variable {rest : List UInt8}

/-- A number is read with its sign. -/
theorem value_signed (fuel : Nat) (read : number? negative (Utf8.ofChars magnitude ++ rest) = some (l, rest)) :
    value (fuel + 1) (Utf8.ofChars (if negative then '-' :: magnitude else magnitude) ++ rest) =
      .whole (.number l) rest := by
  cases negative with
  | true =>
    have bytes : Utf8.ofChars ('-' :: magnitude) ++ rest = 0x2d :: (Utf8.ofChars magnitude ++ rest) := by
      simp [show Utf8.ofChar '-' = [0x2d] by decide]
    rw [if_pos rfl, bytes]
    simp [value, skipBlank, isBlank, scalar, read]
  | false =>
    -- Without a sign the first byte is a digit, and a digit starts nothing but a number.
    obtain ⟨b, more, bytes, digit⟩ := isDigit_of_number? read
    obtain ⟨visible, -, bracket, brace, quote, n, t, f, minus⟩ := not_marks_of_isDigit digit
    rw [if_neg (by decide)]
    rw [bytes] at read ⊢
    simp [value, skipBlank, scalar, visible, bracket, brace, quote, n, t, f, minus, read]

/-- A number starts with a digit or a sign. -/
theorem starts_signed (read : number? negative (Utf8.ofChars magnitude ++ []) = some (l, [])) :
    Starts (Utf8.ofChars (if negative then '-' :: magnitude else magnitude)) := by
  cases negative with
  | true =>
    refine ⟨0x2d, Utf8.ofChars magnitude, ?_, by decide, by decide⟩
    simp [show Utf8.ofChar '-' = [0x2d] by decide]
  | false =>
    obtain ⟨b, more, bytes, digit⟩ := isDigit_of_number? read
    rw [append_nil] at bytes
    obtain ⟨visible, bracket, -⟩ := not_marks_of_isDigit digit
    exact ⟨b, more, bytes, visible, bracket⟩

theorem endsNumber_nil : EndsNumber [] :=
  fun _ mem => nomatch mem

/-- A number is its sign and a magnitude that reads as its literal. -/
theorem number_eq (n : Number) : ∃ negative magnitude,
    Json.numberChars n = (if negative then '-' :: magnitude else magnitude) ∧
      ∀ rest, EndsNumber rest → number? negative (Utf8.ofChars magnitude ++ rest) = some (n.literal, rest) := by
  cases n with
  | integer n =>
    refine ⟨decide (n < 0), Decimal.digitChars n.natAbs, ?_, fun rest ends => number?_digitChars _ _ ends⟩
    simp [Json.numberChars, Decimal.intChars]
  | double x =>
    refine ⟨x.negative, _, Decimal.finiteChars_eq Json.doubleFormat x, fun rest ends => ?_⟩
    exact Decimal.number?_magnitudeChars Json.doubleFormat x.negative
      (Decimal.exponent_of_digits_eq_zero Json.doubleFormat.tie x) ends

theorem value_number (fuel : Nat) (n : Number) (ends : EndsNumber rest) :
    value (fuel + 1) (Utf8.ofChars (Json.numberChars n) ++ rest) = .whole (.number n.literal) rest := by
  obtain ⟨negative, magnitude, text, read⟩ := number_eq n
  rw [text]
  exact value_signed fuel (read rest ends)

/-- Every document starts with a visible byte. -/
theorem starts_chars (j : Json) : Starts (Utf8.ofChars j.chars) := by
  -- All but numbers start with a fixed mark.
  have marked : ∀ (c : Char) (cs : List Char) (b : UInt8), Utf8.ofChar c = [b] → isBlank b = false → b ≠ 0x5d →
      Starts (Utf8.ofChars (c :: cs)) := by
    intro c cs b byte visible bracket
    exact ⟨b, Utf8.ofChars cs, by simp [byte], visible, bracket⟩
  cases j with
  | null => exact marked 'n' _ 0x6e (by decide) (by decide) (by decide)
  | bool b =>
    cases b with
    | true => exact marked 't' _ 0x74 (by decide) (by decide) (by decide)
    | false => exact marked 'f' _ 0x66 (by decide) (by decide) (by decide)
  | number n =>
    obtain ⟨negative, magnitude, text, read⟩ := number_eq n
    rw [Json.chars, text]
    exact starts_signed (read [] endsNumber_nil)
  | string s => exact marked '"' _ 0x22 (by decide) (by decide) (by decide)
  | array items => exact marked '[' _ 0x5b (by decide) (by decide) (by decide)
  | object members => exact marked '\x7b' _ 0x7b (by decide) (by decide) (by decide)

theorem value_string (fuel : Nat) (s : String) (rest : List UInt8) :
    value (fuel + 1) (Utf8.ofChars (Json.stringChars s) ++ rest) = .whole (.string (some s)) rest := by
  rw [ofChars_stringChars]
  simp [value, skipBlank, isBlank, scalar, string?_text]

/-- Words are read whatever follows. -/
theorem value_word (fuel : Nat) (rest : List UInt8) :
    value (fuel + 1) (Utf8.ofChars (Json.chars .null) ++ rest) = .whole .null rest ∧
      value (fuel + 1) (Utf8.ofChars (Json.chars (.bool true)) ++ rest) = .whole (.bool true) rest ∧
      value (fuel + 1) (Utf8.ofChars (Json.chars (.bool false)) ++ rest) = .whole (.bool false) rest := by
  have null : Utf8.ofChars (Json.chars .null) = [0x6e, 0x75, 0x6c, 0x6c] := by decide
  have yes : Utf8.ofChars (Json.chars (.bool true)) = [0x74, 0x72, 0x75, 0x65] := by decide
  have no : Utf8.ofChars (Json.chars (.bool false)) = [0x66, 0x61, 0x6c, 0x73, 0x65] := by decide
  rw [null, yes, no]
  refine ⟨?_, ?_, ?_⟩ <;> simp [value, skipBlank, isBlank, scalar, word?]

theorem value_array (fuel : Nat) {inner : List UInt8} (starts : Starts inner) :
    value (fuel + 1) (0x5b :: inner) = items fuel [] inner := by
  obtain ⟨b, more, rfl, visible, bracket⟩ := starts
  have same : skipBlank (b :: more) = b :: more := by simp [skipBlank, visible]
  have opened : skipBlank (0x5b :: b :: more) = 0x5b :: b :: more := by simp [skipBlank, isBlank]
  unfold value
  simp only [opened, same, beq_self_eq_true, if_true]
  -- The reader asks first whether the array ends at once, which an item's first byte rules out.
  split
  · rename_i first
    cases first
    exact absurd rfl bracket
  · rfl

theorem value_object (fuel : Nat) (more : List UInt8) :
    value (fuel + 1) (0x7b :: 0x22 :: more) = members fuel [] (0x22 :: more) := by
  simp [value, skipBlank, isBlank]

/-- An item is followed by another one or by the end of the array. -/
theorem items_step (before : List TokenTree) (tail : List UInt8) :
    (value fuel bytes = .whole tree (0x2c :: tail) → items (fuel + 1) before bytes = items fuel (tree :: before) tail) ∧
      (value fuel bytes = .whole tree (0x5d :: tail) →
        items (fuel + 1) before bytes = .whole (.array (tree :: before).reverse true) tail) := by
  constructor
  · intro read
    simp [items, read, skipBlank, isBlank]
  · intro read
    simp [items, read, skipBlank, isBlank]

/-- A member is followed by another one or by the end of the object. -/
theorem members_step {key : String} (before : List (Option String × TokenTree)) (tail : List UInt8) :
    (value fuel bytes = .whole tree (0x2c :: tail) →
      members (fuel + 1) before (Utf8.ofChars (Json.stringChars key) ++ 0x3a :: bytes) =
        members fuel ((some key, tree) :: before) tail) ∧
      (value fuel bytes = .whole tree (0x7d :: tail) →
        members (fuel + 1) before (Utf8.ofChars (Json.stringChars key) ++ 0x3a :: bytes) =
          .whole (.object ((some key, tree) :: before).reverse true) tail) := by
  rw [ofChars_stringChars]
  constructor
  · intro read
    simp [members, read, skipBlank, isBlank, string?_text]
  · intro read
    simp [members, read, skipBlank, isBlank, string?_text]

theorem chars_length_pos (j : Json) : 0 < j.chars.length := by
  obtain ⟨b, more, bytes, -⟩ := starts_chars j
  refine length_pos_of_ne_nil fun nothing => ?_
  rw [nothing] at bytes
  cases bytes

theorem endsNumber_cons (mark : b = 0x2c ∨ b = 0x5d ∨ b = 0x7d) (rest : List UInt8) : EndsNumber (b :: rest) := by
  intro c mem
  cases mem
  rcases mark with rfl | rfl | rfl <;> decide

theorem ofChar_marks : Utf8.ofChar '[' = [0x5b] ∧ Utf8.ofChar ']' = [0x5d] ∧ Utf8.ofChar '\x7b' = [0x7b] ∧
    Utf8.ofChar '\x7d' = [0x7d] ∧ Utf8.ofChar ',' = [0x2c] ∧ Utf8.ofChar ':' = [0x3a] := by decide

mutual

/-- A document is read back from its text, and what follows is left. -/
theorem value_chars : (j : Json) → (fuel : Nat) → 2 * j.chars.length ≤ fuel → (rest : List UInt8) → EndsNumber rest →
    value fuel (Utf8.ofChars j.chars ++ rest) = .whole j.tokens rest
  | j, 0, enough, _, _ => absurd enough (by have := chars_length_pos j; omega)
  | .null, fuel + 1, _, rest, _ => (value_word fuel rest).1
  | .bool true, fuel + 1, _, rest, _ => (value_word fuel rest).2.1
  | .bool false, fuel + 1, _, rest, _ => (value_word fuel rest).2.2
  | .number n, fuel + 1, _, _, ends => value_number fuel n ends
  | .string s, fuel + 1, _, rest, _ => value_string fuel s rest
  | .array [], fuel + 1, _, rest, _ => by
    have bytes : Utf8.ofChars (Json.chars (.array [])) = [0x5b, 0x5d] := by decide
    rw [bytes]
    simp [value, skipBlank, isBlank, Json.tokens, Json.itemTokens]
  | .array (j :: more), fuel + 1, enough, rest, _ => by
    obtain ⟨opening, closing, -⟩ := ofChar_marks
    have bytes : Utf8.ofChars (Json.chars (.array (j :: more))) ++ rest =
        0x5b :: (Utf8.ofChars (Json.commaChars (Json.itemChars (j :: more))) ++ 0x5d :: rest) := by
      simp [Json.chars, opening, closing]
    -- The first item is visible and no closing bracket, so the array is not taken for an empty one.
    have starts : Starts (Utf8.ofChars (Json.commaChars (Json.itemChars (j :: more))) ++ 0x5d :: rest) := by
      obtain ⟨b, tail, first, visible⟩ := starts_chars j
      rw [Json.itemChars, Json.commaChars_cons, Utf8.ofChars_append, first]
      exact ⟨b, _, rfl, visible⟩
    -- The brackets are two characters, which pay for the step into the items.
    rw [Json.chars, length_cons, length_append, length_singleton] at enough
    rw [bytes, value_array fuel starts, items_chars (j :: more) (by simp) fuel (by omega) [] rest]
    rfl
  | .object [], fuel + 1, _, rest, _ => by
    have bytes : Utf8.ofChars (Json.chars (.object [])) = [0x7b, 0x7d] := by decide
    rw [bytes]
    simp [value, skipBlank, isBlank, Json.tokens, Json.memberTokens]
  | .object ((k, j) :: more), fuel + 1, enough, rest, _ => by
    obtain ⟨-, -, opening, closing, -⟩ := ofChar_marks
    have bytes : Utf8.ofChars (Json.chars (.object ((k, j) :: more))) ++ rest =
        0x7b :: (Utf8.ofChars (Json.commaChars ((Json.memberTexts ((k, j) :: more)).map Json.memberChars)) ++
          0x7d :: rest) := by
      simp [Json.chars, opening, closing]
    -- The first member starts with the quote of its key.
    have first : ∃ tail, Utf8.ofChars (Json.commaChars ((Json.memberTexts ((k, j) :: more)).map Json.memberChars)) ++
        0x7d :: rest = 0x22 :: tail := by
      rw [Json.memberTexts, map_cons, Json.commaChars_cons, Json.memberChars, Utf8.ofChars_append,
        Utf8.ofChars_append, append_assoc, append_assoc, ofChars_stringChars]
      exact ⟨_, rfl⟩
    rw [Json.chars, length_cons, length_append, length_singleton] at enough
    have read := members_chars ((k, j) :: more) (by simp) fuel (by omega) [] rest
    obtain ⟨tail, first⟩ := first
    rw [first] at read
    rw [bytes, first, value_object, read]
    rfl

/-- The items of an array are read back from their texts. -/
theorem items_chars : (js : List Json) → js ≠ [] → (fuel : Nat) →
    2 * (Json.commaChars (Json.itemChars js)).length + 1 ≤ fuel →
    (before : List TokenTree) → (rest : List UInt8) →
    items fuel before (Utf8.ofChars (Json.commaChars (Json.itemChars js)) ++ 0x5d :: rest) =
      .whole (.array (before.reverse ++ Json.itemTokens js) true) rest
  | _, _, 0, enough, _, _ => absurd enough (by omega)
  | [], nonempty, _, _, _, _ => absurd rfl nonempty
  | [j], _, fuel + 1, enough, before, rest => by
    simp only [Json.itemChars, Json.commaChars] at enough ⊢
    -- The last item ends before the bracket.
    have read := value_chars j fuel (by omega) (0x5d :: rest) (endsNumber_cons (.inr (.inl rfl)) rest)
    rw [(items_step before rest).2 read]
    simp [Json.itemTokens]
  | j :: k :: more, _, fuel + 1, enough, before, rest => by
    obtain ⟨-, -, -, -, comma, -⟩ := ofChar_marks
    have text : Utf8.ofChars (Json.commaChars (Json.itemChars (j :: k :: more))) ++ 0x5d :: rest =
        Utf8.ofChars j.chars ++ 0x2c ::
          (Utf8.ofChars (Json.commaChars (Json.itemChars (k :: more))) ++ 0x5d :: rest) := by
      simp [Json.itemChars, Json.commaChars, comma]
    -- Each item has a character and the comma behind it, which is fuel for two steps.
    have size : (Json.commaChars (Json.itemChars (j :: k :: more))).length =
        j.chars.length + 1 + (Json.commaChars (Json.itemChars (k :: more))).length := by
      simp [Json.itemChars, Json.commaChars]
      omega
    rw [size] at enough
    -- What follows the first item does not matter for reading it.
    have read := fun tail => value_chars j fuel (by omega) (0x2c :: tail) (endsNumber_cons (.inl rfl) tail)
    rw [text, (items_step before _).1 (read _),
      items_chars (k :: more) (by simp) fuel (by omega) (j.tokens :: before) rest]
    simp [Json.itemTokens]

/-- The members of an object are read back from their texts. -/
theorem members_chars : (ms : List (String × Json)) → ms ≠ [] → (fuel : Nat) →
    2 * (Json.commaChars ((Json.memberTexts ms).map Json.memberChars)).length + 1 ≤ fuel →
    (before : List (Option String × TokenTree)) → (rest : List UInt8) →
    members fuel before (Utf8.ofChars (Json.commaChars ((Json.memberTexts ms).map Json.memberChars)) ++ 0x7d :: rest) =
      .whole (.object (before.reverse ++ Json.memberTokens ms) true) rest
  | _, _, 0, enough, _, _ => absurd enough (by omega)
  | [], nonempty, _, _, _, _ => absurd rfl nonempty
  | [(k, j)], _, fuel + 1, enough, before, rest => by
    obtain ⟨-, -, -, -, -, colon⟩ := ofChar_marks
    have text : Utf8.ofChars (Json.commaChars ((Json.memberTexts [(k, j)]).map Json.memberChars)) ++ 0x7d :: rest =
        Utf8.ofChars (Json.stringChars k) ++ 0x3a :: (Utf8.ofChars j.chars ++ 0x7d :: rest) := by
      simp [Json.memberTexts, Json.memberChars, Json.commaChars, colon]
    -- The key takes characters too, so there is fuel to spare.
    have size : j.chars.length ≤ (Json.commaChars ((Json.memberTexts [(k, j)]).map Json.memberChars)).length := by
      simp [Json.memberTexts, Json.memberChars, Json.commaChars]
      omega
    have read := value_chars j fuel (by omega) (0x7d :: rest) (endsNumber_cons (.inr (.inr rfl)) rest)
    rw [text, (members_step before rest).2 read]
    simp [Json.memberTokens]
  | (k, j) :: m :: more, _, fuel + 1, enough, before, rest => by
    obtain ⟨-, -, -, -, comma, colon⟩ := ofChar_marks
    have text : Utf8.ofChars (Json.commaChars ((Json.memberTexts ((k, j) :: m :: more)).map Json.memberChars)) ++
        0x7d :: rest = Utf8.ofChars (Json.stringChars k) ++ 0x3a :: (Utf8.ofChars j.chars ++ 0x2c ::
          (Utf8.ofChars (Json.commaChars ((Json.memberTexts (m :: more)).map Json.memberChars)) ++ 0x7d :: rest)) := by
      simp [Json.memberTexts, Json.memberChars, Json.commaChars, comma, colon]
    have size : j.chars.length + 1 + (Json.commaChars ((Json.memberTexts (m :: more)).map Json.memberChars)).length ≤
        (Json.commaChars ((Json.memberTexts ((k, j) :: m :: more)).map Json.memberChars)).length := by
      simp [Json.memberTexts, Json.memberChars, Json.commaChars]
      omega
    -- The first member ends at the comma, and the others are read with what fuel is left.
    have read := fun tail => value_chars j fuel (by omega) (0x2c :: tail) (endsNumber_cons (.inl rfl) tail)
    rw [text, (members_step before _).1 (read _),
      members_chars (m :: more) (by simp) fuel (by omega) ((some k, j.tokens) :: before) rest]
    simp [Json.memberTokens]

end

end Scan

end EntityGraph
