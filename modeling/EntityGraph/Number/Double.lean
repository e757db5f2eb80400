/-! Doubles as their sixty-four bits, so that every payload is kept and compared exactly. -/

namespace EntityGraph

/-- A binary64 number, not a number included. -/
structure Double where
  bits : UInt64
deriving DecidableEq

namespace Double

/-- The sign bit. -/
def negative (x : Double) : Bool :=
  x.bits.toNat / Nat.pow 2 63 == 1

/-- The eleven exponent bits. -/
def exponentBits (x : Double) : Nat :=
  x.bits.toNat / Nat.pow 2 52 % Nat.pow 2 11

/-- The fifty-two fraction bits. -/
def fractionBits (x : Double) : Nat :=
  x.bits.toNat % Nat.pow 2 52

/-- Neither infinite nor not a number. -/
def isFinite (x : Double) : Bool :=
  x.exponentBits != 2047

/-- Not a number. -/
def isNaN (x : Double) : Bool :=
  x.exponentBits == 2047 && x.fractionBits != 0

/-- The whole number that a finite magnitude is, in units of `2 ^ x.scale`. -/
def significand (x : Double) : Nat :=
  if x.exponentBits = 0 then x.fractionBits else Nat.pow 2 52 + x.fractionBits

/-- The exponent of the unit in the last place. -/
def scale (x : Double) : Int :=
  if x.exponentBits = 0 then -1074 else x.exponentBits - 1075

/-- The bits of a magnitude with its sign. -/
def ofMagnitude (negative : Bool) (bits : Nat) : Double :=
  ⟨(if negative then Nat.pow 2 63 + bits else bits).toUInt64⟩

end Double

end EntityGraph
