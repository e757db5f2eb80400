import EntityGraph.Json.Scan
import EntityGraph.Proofs.Bytes.Utf8
import EntityGraph.Proofs.Number.Shortest

/-! Numbers read back from their text.

An integer comes back as it is. The text of a double comes back as digits with an exponent, whatever the spelling, and
the number that they make is the one whose digits were written. -/

namespace EntityGraph

open List

open Shortest

namespace Scan

variable {c : Char} {negative : Bool} {bytes whole : List UInt8}

/-- The text that follows a number cannot be taken for a part of it. -/
def EndsNumber (rest : List UInt8) : Prop :=
  ∀ b ∈ rest.head?, isDigit b = false ∧ b ≠ 0x2e ∧ b ≠ 0x65 ∧ b ≠ 0x45

theorem toNat_of_isDigit (digit : c.isDigit = true) : 48 ≤ c.toNat ∧ c.toNat ≤ 57 := by
  simpa [Char.isDigit, UInt32.le_iff_toNat_le] using digit

theorem ofChar_digit (digit : c.isDigit = true) : Utf8.ofChar c = [UInt8.ofNat c.toNat] :=
  Utf8.ofChar_narrow (by have := toNat_of_isDigit digit; omega)

theorem toNat_ofNat_digit (digit : c.isDigit = true) : (UInt8.ofNat c.toNat).toNat = c.toNat := by
  have := toNat_of_isDigit digit
  rw [UInt8.toNat_ofNat', Nat.mod_eq_of_lt (by omega)]

variable {ds : List Char} {rest : List UInt8}

section

variable (digits : ∀ c ∈ ds, c.isDigit = true)
include digits

/-- Characters that are digits are bytes that are digits. -/
theorem isDigit_of_mem_ofChars : ∀ b ∈ Utf8.ofChars ds, isDigit b = true := by
  intro b mem
  obtain ⟨c, inside, mem⟩ := mem_flatMap.mp mem
  have bounds := toNat_of_isDigit (digits c inside)
  rw [ofChar_digit (digits c inside), mem_singleton] at mem
  subst mem
  simp only [isDigit, Bool.and_eq_true, decide_eq_true_eq, UInt8.le_iff_toNat_le, toNat_ofNat_digit (digits c inside),
    UInt8.reduceToNat]
  omega

theorem length_ofChars_digits : (Utf8.ofChars ds).length = ds.length := by
  induction ds with
  | nil => rfl
  | cons c ds ih =>
    rw [Utf8.ofChars_cons, ofChar_digit (digits c mem_cons_self), length_append, length_singleton,
      ih fun d mem => digits d (.tail _ mem), length_cons, Nat.add_comm]

/-- Digits are worth as much in bytes as in characters. -/
theorem digitsValue_ofChars (before : Nat) : digitsValue before (Utf8.ofChars ds) = Nat.ofDigitChars 10 ds before := by
  induction ds generalizing before with
  | nil => simp [digitsValue]
  | cons c ds ih =>
    -- The value so far is part of the induction, since each digit adds to it.
    have tail := ih (fun d mem => digits d (.tail _ mem)) (10 * before + (c.toNat - 48))
    rw [Nat.ofDigitChars_cons, Utf8.ofChars_cons, ofChar_digit (digits c mem_cons_self)]
    unfold digitsValue at tail ⊢
    rw [singleton_append, foldl_cons, toNat_ofNat_digit (digits c mem_cons_self)]
    exact tail

/-- All digits are taken, and no more. -/
theorem someDigits?_ofChars (nonempty : ds ≠ []) (stop : ∀ b ∈ rest.head?, isDigit b = false) :
    someDigits? (Utf8.ofChars ds ++ rest) = some (Utf8.ofChars ds, rest) := by
  have all := isDigit_of_mem_ofChars digits
  -- The run of digits ends where the text of them does, because what follows starts with another byte.
  have taken : (Utf8.ofChars ds ++ rest).takeWhile isDigit = Utf8.ofChars ds := by
    rw [takeWhile_append_of_pos all]
    cases rest with
    | nil => simp
    | cons b rest => simp [stop b rfl]
  have some : (Utf8.ofChars ds).isEmpty = false := by
    have := length_ofChars_digits digits
    have := length_pos_of_ne_nil nonempty
    rw [isEmpty_eq_false_iff]
    exact ne_nil_of_length_pos (by omega)
  unfold someDigits?
  simp only [taken, some, Bool.false_eq_true, if_false, drop_left]

end

theorem isDigit_of_mem_digitChars (n : Nat) : ∀ c ∈ Decimal.digitChars n, c.isDigit = true :=
  fun _ mem => Nat.isDigit_of_mem_toDigits (by decide) (by decide) mem

theorem digitChars_ne_nil (n : Nat) : Decimal.digitChars n ≠ [] :=
  Nat.toDigits_ne_nil

/-- Only zero is written with a zero in front. -/
theorem head?_digitChars {n : Nat} (positive : 0 < n) : (Decimal.digitChars n).head? ≠ some '0' := by
  unfold Decimal.digitChars
  induction n using Nat.strongRecOn with
  | ind n ih =>
    by_cases small : n < 10
    · -- One digit, and not zero.
      rw [Nat.toDigits_of_lt_base small]
      have : n = 1 ∨ n = 2 ∨ n = 3 ∨ n = 4 ∨ n = 5 ∨ n = 6 ∨ n = 7 ∨ n = 8 ∨ n = 9 := by omega
      rcases this with rfl | rfl | rfl | rfl | rfl | rfl | rfl | rfl | rfl <;> decide
    · -- The first digit is that of the other digits.
      rw [Nat.toDigits_of_base_le (by decide) (by omega), head?_append_of_ne_nil _ Nat.toDigits_ne_nil]
      exact ih (n / 10) (by omega) (by omega)

/-- Digits that do not start with a zero may stand before the point. -/
theorem wholeDigits?_ofChars (digits : ∀ c ∈ ds, c.isDigit = true) (nonempty : ds ≠ [])
    (plain : ds.head? ≠ some '0' ∨ ds = ['0']) (stop : ∀ b ∈ rest.head?, isDigit b = false) :
    wholeDigits? (Utf8.ofChars ds ++ rest) = some (Utf8.ofChars ds, rest) := by
  -- The reader refuses a zero in front of other digits.
  have allowed : ((Utf8.ofChars ds).head? == some 0x30 && (Utf8.ofChars ds).length != 1) = false := by
    obtain first | rfl := plain
    · obtain ⟨c, ds, rfl⟩ := exists_cons_of_ne_nil nonempty
      have digit := digits c mem_cons_self
      have other : UInt8.ofNat c.toNat ≠ 0x30 := by
        intro zero
        have same := congrArg UInt8.toNat zero
        rw [toNat_ofNat_digit digit] at same
        exact first (congrArg some (Char.toNat_inj.mp same))
      simp [Utf8.ofChars_cons, ofChar_digit digit, other]
    · decide
  unfold wholeDigits?
  rw [someDigits?_ofChars digits nonempty stop]
  simp only [Option.bind_eq_bind, Option.bind_some, allowed, Bool.false_eq_true, if_false]

/-- The digits of a number are read up to what follows. -/
theorem wholeDigits?_digitChars (n : Nat) (stop : ∀ b ∈ rest.head?, isDigit b = false) :
    wholeDigits? (Utf8.ofChars (Decimal.digitChars n) ++ rest) = some (Utf8.ofChars (Decimal.digitChars n), rest) := by
  refine wholeDigits?_ofChars (isDigit_of_mem_digitChars n) (digitChars_ne_nil n) ?_ stop
  -- Zero is the one number that starts with a zero.
  by_cases zero : n = 0
  · exact .inr (by rw [zero]; decide)
  · exact .inl (head?_digitChars (by omega))

/-- Digits have the value of their number. -/
theorem digitsValue_digitChars (n : Nat) : digitsValue 0 (Utf8.ofChars (Decimal.digitChars n)) = n := by
  rw [digitsValue_ofChars (isDigit_of_mem_digitChars n)]
  exact Nat.ofDigitChars_ten_toDigits

theorem number?_point {more fraction : List UInt8}
    (first : wholeDigits? bytes = some (whole, 0x2e :: more)) (second : someDigits? more = some (fraction, rest)) :
    number? negative bytes =
      withExponent? ⟨negative, digitsValue (digitsValue 0 whole) fraction, fraction.length, 0, false⟩ rest := by
  unfold number?
  simp only [first, second, Option.bind_eq_bind, Option.bind_some]

theorem number?_whole (first : wholeDigits? bytes = some (whole, rest)) (next : ∀ b ∈ rest.head?, b ≠ 0x2e) :
    number? negative bytes = withExponent? ⟨negative, digitsValue 0 whole, 0, 0, true⟩ rest := by
  unfold number?
  simp only [first, Option.bind_eq_bind, Option.bind_some]
  split
  · exact absurd rfl (next 0x2e rfl)
  · rfl

theorem withExponent?_none (l : Literal) (ends : EndsNumber rest) : withExponent? l rest = some (l, rest) := by
  cases rest with
  | nil => rfl
  | cons b rest =>
    -- Neither letter that starts an exponent follows.
    obtain ⟨-, -, small, large⟩ := ends b rfl
    simp [withExponent?, small, large]

/-- A natural number comes back from its digits. -/
theorem number?_digitChars (negative : Bool) (n : Nat) (ends : EndsNumber rest) :
    number? negative (Utf8.ofChars (Decimal.digitChars n) ++ rest) = some (⟨negative, n, 0, 0, true⟩, rest) := by
  rw [number?_whole (wholeDigits?_digitChars n fun b mem => (ends b mem).1) fun b mem => (ends b mem).2.1,
    digitsValue_digitChars, withExponent?_none _ ends]

/-- So does an exponent, with its sign. -/
theorem exponent?_digitChars (n : Nat) (stop : ∀ b ∈ rest.head?, isDigit b = false) :
    exponent? (Utf8.ofChars (Decimal.digitChars n) ++ rest) = some ((n : Int), rest) ∧
      exponent? (0x2b :: (Utf8.ofChars (Decimal.digitChars n) ++ rest)) = some ((n : Int), rest) ∧
      exponent? (0x2d :: (Utf8.ofChars (Decimal.digitChars n) ++ rest)) = some (-(n : Int), rest) := by
  have digits := isDigit_of_mem_ofChars (isDigit_of_mem_digitChars n)
  have read := someDigits?_ofChars (isDigit_of_mem_digitChars n) (digitChars_ne_nil n) stop
  have value := digitsValue_digitChars n
  have some : Utf8.ofChars (Decimal.digitChars n) ≠ [] := by
    refine ne_nil_of_length_pos ?_
    rw [length_ofChars_digits (isDigit_of_mem_digitChars n)]
    exact length_pos_of_ne_nil (digitChars_ne_nil n)
  -- Only the first byte matters for the sign, so the digits are made opaque behind what is known of them.
  generalize Utf8.ofChars (Decimal.digitChars n) = bytes at *
  obtain ⟨b, bytes, rfl⟩ := exists_cons_of_ne_nil some
  have digit := digits b mem_cons_self
  simp only [cons_append] at read ⊢
  refine ⟨?_, ?_, ?_⟩
  · -- A digit is no sign.
    unfold exponent?
    dsimp only
    split
    · rename_i first
      cases first
      cases digit
    · rename_i first
      cases first
      cases digit
    · simp [read, value]
  · simp [exponent?, read, value]
  · simp [exponent?, read, value]

/-- An exponent is read as it is, with or without its sign. -/
theorem withExponent?_intChars (l : Literal) (signed : Bool) (e : Int) (stop : ∀ b ∈ rest.head?, isDigit b = false) :
    withExponent? l (Utf8.ofChars ('e' :: ((if signed ∧ 0 ≤ e then ['+'] else []) ++ Decimal.intChars e)) ++ rest) =
      some (⟨l.negative, l.digits, l.places, e, false⟩, rest) := by
  obtain ⟨plain, plus, minus⟩ := exponent?_digitChars e.natAbs stop
  have mark : Utf8.ofChar 'e' = [0x65] := by decide
  have plus_mark : Utf8.ofChar '+' = [0x2b] := by decide
  have minus_mark : Utf8.ofChar '-' = [0x2d] := by decide
  -- The sign is written for a negative exponent, and on request for others.
  unfold Decimal.intChars
  by_cases negative : e < 0
  · have value : -((e.natAbs : Int)) = e := by omega
    rw [value] at minus
    rw [if_neg (by omega), if_pos negative]
    simp [mark, minus_mark, withExponent?, minus]
  · have value : ((e.natAbs : Int)) = e := by omega
    rw [value] at plain plus
    rw [if_neg negative]
    by_cases shown : signed = true
    · rw [if_pos ⟨shown, by omega⟩]
      simp [mark, plus_mark, withExponent?, plus]
    · rw [if_neg fun both => shown both.1]
      simp [mark, withExponent?, plain]

end Scan

namespace Decimal

open Scan

/-- The literal that digits are written as. -/
def literal (format : Format) (negative : Bool) (d : Digits) : Literal :=
  let count := (digitChars d.digits).length
  let leading : Int := d.exponent + count - 1
  if d.digits = 0 ∨ (format.plainFrom ≤ leading ∧ leading ≤ format.plainTo) then
    if 0 ≤ d.exponent then ⟨negative, d.digits * 10 ^ d.exponent.toNat * 10, 1, 0, false⟩
    else ⟨negative, d.digits, (-d.exponent).toNat, 0, false⟩
  else ⟨negative, d.digits, count - 1, leading, false⟩

variable {d : Digits} {rest : List UInt8}

/-- Digits around a point are read in order, those after it as places. -/
theorem number?_around (negative : Bool) {before after : List Char} (before_digits : ∀ c ∈ before, c.isDigit = true)
    (after_digits : ∀ c ∈ after, c.isDigit = true) (before_some : before ≠ []) (after_some : after ≠ [])
    (plain : before.head? ≠ some '0' ∨ before = ['0']) (stop : ∀ b ∈ rest.head?, isDigit b = false) :
    number? negative (Utf8.ofChars (before ++ '.' :: after) ++ rest) =
      withExponent? ⟨negative, Nat.ofDigitChars 10 (before ++ after) 0, after.length, 0, false⟩ rest := by
  have point : Utf8.ofChar '.' = [0x2e] := by decide
  -- The digits on both sides of the point are runs of their own.
  have bytes : Utf8.ofChars (before ++ '.' :: after) ++ rest =
      Utf8.ofChars before ++ 0x2e :: (Utf8.ofChars after ++ rest) := by
    simp [point]
  rw [bytes, number?_point (wholeDigits?_ofChars before_digits before_some plain fun b mem => by cases mem; rfl)
    (someDigits?_ofChars after_digits after_some stop), digitsValue_ofChars before_digits,
    digitsValue_ofChars after_digits, length_ofChars_digits after_digits, Nat.ofDigitChars_append]

theorem isDigit_replicate (n : Nat) : ∀ c ∈ List.replicate n '0', c.isDigit = true := by
  intro c mem
  rw [eq_of_mem_replicate mem]
  rfl

/-- Digits that are written around a point are read back. -/
theorem number?_plain (negative : Bool) (zero : d.digits = 0 → d.exponent = 0) (ends : EndsNumber rest) :
    number? negative (Utf8.ofChars (plain d) ++ rest) = some (if 0 ≤ d.exponent then
      ⟨negative, d.digits * 10 ^ d.exponent.toNat * 10, 1, 0, false⟩
      else ⟨negative, d.digits, (-d.exponent).toNat, 0, false⟩, rest) := by
  have digits := isDigit_of_mem_digitChars d.digits
  have some := digitChars_ne_nil d.digits
  have value : Nat.ofDigitChars 10 (digitChars d.digits) 0 = d.digits := Nat.ofDigitChars_ten_toDigits
  have stop : ∀ b ∈ rest.head?, isDigit b = false := fun b mem => (ends b mem).1
  unfold plain
  dsimp only
  split
  · -- Zeros fill up the places before the point, and one zero stands after it.
    rw [show digitChars d.digits ++ List.replicate d.exponent.toNat '0' ++ ['.', '0'] =
      (digitChars d.digits ++ List.replicate d.exponent.toNat '0') ++ '.' :: ['0'] from rfl,
      number?_around negative (fun c mem => (mem_append.mp mem).elim (digits c) (isDigit_replicate _ c))
        (fun c mem => by rw [mem_singleton.mp mem]; rfl) (by simp [some]) (by decide) ?_ stop,
      withExponent?_none _ ends, Nat.ofDigitChars_append, Nat.ofDigitChars_append, value,
      Nat.ofDigitChars_replicate_zero]
    · simp [Nat.ofDigitChars_cons, Nat.mul_comm]
    · -- No zero stands in front unless the number is zero, and then there is nothing to fill up.
      by_cases nothing : d.digits = 0
      · exact .inr (by rw [nothing, zero nothing]; decide)
      · refine .inl ?_
        rw [head?_append_of_ne_nil _ some]
        exact head?_digitChars (by omega)
  · rename_i fraction
    have count : 0 < (digitChars d.digits).length := length_pos_of_ne_nil some
    have positive : 0 < d.digits := Nat.pos_of_ne_zero fun nothing => fraction (by rw [zero nothing])
    split
    · -- The point stands between the digits.
      rename_i inside
      rw [number?_around negative (fun c mem => digits c (mem_of_mem_take mem))
          (fun c mem => digits c (mem_of_mem_drop mem)) ?_ ?_ (.inl ?_) stop, withExponent?_none _ ends,
        take_append_drop, value, length_drop]
      · congr 3
        omega
      · refine ne_nil_of_length_pos ?_
        rw [length_take]
        omega
      · refine ne_nil_of_length_pos ?_
        rw [length_drop]
        omega
      · rw [head?_take, if_neg (by omega)]
        exact head?_digitChars positive
    · -- Zeros fill up the places after the point.
      rename_i outside
      have front : ∀ cs : List Char, '0' :: '.' :: cs = ['0'] ++ '.' :: cs := fun _ => rfl
      rw [front, number?_around negative (fun c mem => by rw [mem_singleton.mp mem]; rfl)
          (fun c mem => (mem_append.mp mem).elim (isDigit_replicate _ c) (digits c)) (by decide) (by simp [some])
          (.inr rfl) stop, withExponent?_none _ ends, length_append, length_replicate]
      -- Zeros in front add nothing to the value.
      have leading (k : Nat) :
          Nat.ofDigitChars 10 (['0'] ++ (List.replicate k '0' ++ digitChars d.digits)) 0 = d.digits := by
        rw [Nat.ofDigitChars_append, Nat.ofDigitChars_append, Nat.ofDigitChars_replicate_zero]
        exact value
      rw [leading]
      congr 3
      omega

/-- Digits that are written with an exponent are read back. -/
theorem number?_scientific (format : Format) (negative : Bool) (leading : Int) (positive : 0 < d.digits)
    (ends : EndsNumber rest) : number? negative (Utf8.ofChars (scientific format d leading) ++ rest) =
      some (⟨negative, d.digits, (digitChars d.digits).length - 1, leading, false⟩, rest) := by
  have digits := isDigit_of_mem_digitChars d.digits
  have some := digitChars_ne_nil d.digits
  have value : Nat.ofDigitChars 10 (digitChars d.digits) 0 = d.digits := Nat.ofDigitChars_ten_toDigits
  have exponent := fun l => withExponent?_intChars l format.signedExponent leading fun b mem => (ends b mem).1
  have count : 0 < (digitChars d.digits).length := length_pos_of_ne_nil some
  -- The mark of the exponent ends the digits in front of it.
  have mark : ∀ cs, (Utf8.ofChars ('e' :: cs) ++ rest).head? = .some 0x65 := by
    intro cs
    simp [show Utf8.ofChar 'e' = [0x65] by decide]
  have stop : ∀ cs, ∀ b ∈ (Utf8.ofChars ('e' :: cs) ++ rest).head?, isDigit b = false := by
    intro cs b mem
    rw [mark cs] at mem
    cases mem
    rfl
  unfold scientific
  dsimp only
  rw [append_assoc, cons_append, Utf8.ofChars_append, append_assoc]
  split
  · -- A single digit stands without a point.
    rename_i single
    rw [number?_whole (wholeDigits?_digitChars d.digits (stop _)) fun b mem => by rw [mark] at mem; cases mem; decide,
      digitsValue_digitChars, exponent, show (digitChars d.digits).length - 1 = 0 by omega]
  · rename_i several
    -- The point stands behind the first digit.
    rw [number?_around negative (fun c mem => digits c (mem_of_mem_take mem))
        (fun c mem => digits c (mem_of_mem_drop mem)) ?_ ?_ (.inl ?_) (stop _), take_append_drop, value,
      length_drop, exponent]
    · refine ne_nil_of_length_pos ?_
      rw [length_take]
      omega
    · refine ne_nil_of_length_pos ?_
      rw [length_drop]
      omega
    · rw [head?_take, if_neg (by decide)]
      exact head?_digitChars positive

/-- The text of digits. -/
def magnitudeChars (format : Format) (d : Digits) : List Char :=
  let leading : Int := d.exponent + (digitChars d.digits).length - 1
  if d.digits = 0 ∨ (format.plainFrom ≤ leading ∧ leading ≤ format.plainTo) then plain d
  else scientific format d leading

theorem finiteChars_eq (format : Format) (x : Double) : finiteChars format x =
    if x.negative then '-' :: magnitudeChars format (Shortest.digits format.tie x)
    else magnitudeChars format (Shortest.digits format.tie x) := rfl

/-- The text of digits reads as their literal. -/
theorem number?_magnitudeChars (format : Format) (negative : Bool) (zero : d.digits = 0 → d.exponent = 0)
    (ends : EndsNumber rest) :
    number? negative (Utf8.ofChars (magnitudeChars format d) ++ rest) = some (literal format negative d, rest) := by
  unfold magnitudeChars literal
  dsimp only
  split
  · exact number?_plain negative zero ends
  · rename_i large
    exact number?_scientific format negative _ (Nat.pos_of_ne_zero fun nothing => large (.inl nothing)) ends

/-- A literal is worth as much as the digits that it spells. -/
theorem value_literal (format : Format) (negative : Bool) (d : Digits) :
    ((literal format negative d).digits : ℚ) *
        10 ^ ((literal format negative d).exponent - (literal format negative d).places)
      = d.value := by
  have count : 0 < (digitChars d.digits).length := length_pos_of_ne_nil (digitChars_ne_nil d.digits)
  unfold literal Digits.value
  dsimp only
  split
  · split
    · rename_i upward
      -- The zero behind the point is a digit too, and its place takes back what it adds.
      have power : ((10 ^ d.exponent.toNat : Nat) : ℚ) = 10 ^ d.exponent := zpow_toNat 10 upward
      rw [Nat.cast_mul, Nat.cast_mul, power]
      norm_num
      ring
    · rename_i downward
      congr 2
      dsimp only
      omega
  · congr 2
    dsimp only
    omega

theorem literal_digits_eq_zero_iff (format : Format) (negative : Bool) (d : Digits) :
    (literal format negative d).digits = 0 ↔ d.digits = 0 := by
  unfold literal
  dsimp only
  split
  · split
    · simp
    · rfl
  · rfl

theorem literal_negative (format : Format) (negative : Bool) (d : Digits) :
    (literal format negative d).negative = negative ∧ (literal format negative d).whole = false := by
  unfold literal
  dsimp only
  split
  · split <;> exact ⟨rfl, rfl⟩
  · exact ⟨rfl, rfl⟩

/-- Only zero has no digit but zero. -/
theorem digits_eq_zero_iff (tie : Tie) (x : Double) : (Shortest.digits tie x).digits = 0 ↔ x.significand = 0 := by
  constructor
  · intro nothing
    -- A double other than zero has digits inside its interval, and this has no zero.
    by_contra positive
    have inside := (contains_digits (by omega : 0 < x.significand) tie).pos (by omega)
    simp [Digits.value, nothing] at inside
  · intro nothing
    simp [Shortest.digits, nothing]

theorem exponent_of_digits_eq_zero (tie : Tie) (x : Double) (nothing : (Shortest.digits tie x).digits = 0) :
    (Shortest.digits tie x).exponent = 0 := by
  rw [digits_eq_zero_iff] at nothing
  simp [Shortest.digits, nothing]

end Decimal

/-- The double nearest to a literal. Past the largest double it is what the bits would be if they went on. -/
def Literal.double (l : Literal) : Double :=
  Double.ofMagnitude l.negative
    (if l.digits = 0 then 0 else Decimal.roundedBits (Decimal.ratio l.digits (l.exponent - l.places)))

namespace Double

variable {x : Double}

theorem magnitudeBits_of_significand_eq_zero (nothing : x.significand = 0) : x.magnitudeBits = 0 := by
  unfold significand at nothing
  simp only [Nat.pow_eq] at nothing
  unfold magnitudeBits
  split at nothing <;> omega

/-- The literal of a double is nearest to that double, infinite or not. -/
theorem double_literal (format : Decimal.Format) (x : Double) :
    (Decimal.literal format x.negative (digits format.tie x)).double = x := by
  have sign := (Decimal.literal_negative format x.negative (digits format.tie x)).1
  have zero := Decimal.literal_digits_eq_zero_iff format x.negative (digits format.tie x)
  have value := Decimal.value_literal format x.negative (digits format.tie x)
  rw [Decimal.digits_eq_zero_iff] at zero
  unfold Literal.double
  rw [sign]
  split
  · rename_i nothing
    -- Zero keeps its sign, which is not part of the digits.
    have bits := magnitudeBits_of_significand_eq_zero (zero.mp nothing)
    rw [← bits, ofMagnitude_magnitudeBits]
  · rename_i some
    -- Any number in the interval of a double rounds to it, and the digits are in it.
    have positive : 0 < x.significand := Nat.pos_of_ne_zero (mt zero.mpr some)
    have inside := contains_digits positive format.tie
    rw [← value, ← Decimal.value_ratio] at inside
    rw [inside.roundedBits_eq positive (Decimal.ratio_num_pos (Nat.pos_of_ne_zero some) _) (Decimal.ratio_den_pos _ _),
      ofMagnitude_magnitudeBits]

/-- The literal of a finite double is the number of that double. -/
theorem number?_literal (format : Decimal.Format) (finite : x.isFinite = true) :
    (Decimal.literal format x.negative (digits format.tie x)).number? = some (.double x) := by
  obtain ⟨sign, whole⟩ := Decimal.literal_negative format x.negative (digits format.tie x)
  have zero := Decimal.literal_digits_eq_zero_iff format x.negative (digits format.tie x)
  have value := Decimal.value_literal format x.negative (digits format.tie x)
  rw [Decimal.digits_eq_zero_iff] at zero
  unfold Literal.number?
  rw [if_neg (by simp [whole]), if_neg (by simp [whole]), sign]
  by_cases nothing : x.significand = 0
  · have bits := magnitudeBits_of_significand_eq_zero nothing
    rw [Decimal.toDouble?, if_pos (zero.mpr nothing), ← bits, ofMagnitude_magnitudeBits]
    rfl
  · -- The digits are in the interval of the double, whatever their spelling.
    have inside := contains_digits (Nat.pos_of_ne_zero nothing) format.tie
    rw [← value] at inside
    rw [Decimal.toDouble?_of_contains finite (Nat.pos_of_ne_zero nothing) x.negative inside, ofMagnitude_magnitudeBits]
    rfl

end Double

end EntityGraph
