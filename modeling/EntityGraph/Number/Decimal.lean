import EntityGraph.Number.Shortest

/-! Doubles as decimal text, and decimal text as doubles. -/

namespace EntityGraph.Decimal

/-- How a double is spelled. -/
structure Format where
  /-- The least exponent of the first digit that is written positionally. -/
  plainFrom : Int
  /-- The greatest exponent of the first digit that is written positionally. -/
  plainTo : Int
  /-- A positive exponent is written with its sign. -/
  signedExponent : Bool
  /-- Settles which of two equally short and equally near spellings is taken. -/
  tie : Shortest.Tie

/-- The decimal digits of a number. -/
def digitChars (n : Nat) : List Char :=
  Nat.toDigits 10 n

/-- A decimal integer. -/
def intChars (n : Int) : List Char :=
  if n < 0 then '-' :: digitChars n.natAbs else digitChars n.natAbs

/-- Digits around a point, with at least one digit on either side. -/
def plain (d : Shortest.Digits) : List Char :=
  let cs := digitChars d.digits
  if 0 ≤ d.exponent then cs ++ List.replicate d.exponent.toNat '0' ++ ['.', '0']
  else
    let places := (-d.exponent).toNat
    if places < cs.length then cs.take (cs.length - places) ++ '.' :: cs.drop (cs.length - places)
    else '0' :: '.' :: (List.replicate (places - cs.length) '0' ++ cs)

/-- One digit before the point and the exponent after the rest. -/
def scientific (format : Format) (d : Shortest.Digits) (leading : Int) : List Char :=
  let cs := digitChars d.digits
  let mantissa := if cs.length ≤ 1 then cs else cs.take 1 ++ '.' :: cs.drop 1
  let sign := if format.signedExponent ∧ 0 ≤ leading then ['+'] else []
  mantissa ++ 'e' :: sign ++ intChars leading

/-- The text of a finite double. -/
def finiteChars (format : Format) (x : Double) : List Char :=
  let d := Shortest.digits format.tie x
  let leading : Int := d.exponent + (digitChars d.digits).length - 1
  let magnitude :=
    if d.digits = 0 ∨ (format.plainFrom ≤ leading ∧ leading ≤ format.plainTo) then plain d
    else scientific format d leading
  if x.negative then '-' :: magnitude else magnitude

/-- Rounds a quotient to the nearest whole number, a half to the even one. -/
def roundDiv (num den : Nat) : Nat :=
  let floor := num / den
  let rest := 2 * (num % den)
  if rest < den then floor
  else if den < rest then floor + 1
  else floor + floor % 2

/-- The exponent of the leading bit of a positive fraction. -/
def leadingBit (r : Shortest.Ratio) : Int :=
  let guess : Int := (r.num.log2 : Int) - r.den.log2
  let above := if 0 ≤ guess then r.den * Nat.pow 2 guess.toNat ≤ r.num
    else r.den ≤ r.num * Nat.pow 2 (-guess).toNat
  if above then guess else guess - 1

/-- The bits of the double nearest to a positive fraction, and no bits for one past the largest double. -/
def roundBits? (r : Shortest.Ratio) : Option Nat :=
  let scale := max (leadingBit r - 52) (-1074)
  let m := if 0 ≤ scale then roundDiv r.num (r.den * Nat.pow 2 scale.toNat)
    else roundDiv (r.num * Nat.pow 2 (-scale).toNat) r.den
  -- The hidden bit of a normal number carries into the exponent, and so does a rounding overflow.
  let bits := (scale + 1074).toNat * Nat.pow 2 52 + m
  if bits < 2047 * Nat.pow 2 52 then some bits else none

/-- The double nearest to `digits * 10 ^ exponent`, unless it overflows. -/
def toDouble? (negative : Bool) (digits : Nat) (exponent : Int) : Option Double :=
  if digits = 0 then some (Double.ofMagnitude negative 0)
  else
    let leading := exponent + (Shortest.digitCount digits : Int)
    -- Past these bounds the answer is known and the powers need not be computed.
    if 400 < leading then none
    else if leading < -400 then some (Double.ofMagnitude negative 0)
    else
      let r : Shortest.Ratio :=
        if 0 ≤ exponent then ⟨digits * Nat.pow 10 exponent.toNat, 1⟩
        else ⟨digits, Nat.pow 10 (-exponent).toNat⟩
      (roundBits? r).map (Double.ofMagnitude negative)

/-- The double nearest to an integer of at most sixty-four bits. -/
def ofInt (n : Int) : Double :=
  (toDouble? (n < 0) n.natAbs 0).getD (Double.ofMagnitude false 0)

end EntityGraph.Decimal
