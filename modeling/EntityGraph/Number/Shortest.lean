import EntityGraph.Number.Double

/-! The fewest decimal digits that read back as a double, and of those the nearest. -/

namespace EntityGraph.Shortest

/-- A positive fraction of natural numbers. -/
structure Ratio where
  num : Nat
  den : Nat

/-- The fraction `n * 2 ^ e`. -/
def Ratio.ofBinary (n : Nat) (e : Int) : Ratio :=
  if 0 ≤ e then ⟨n * Nat.pow 2 e.toNat, 1⟩ else ⟨n, Nat.pow 2 (-e).toNat⟩

/-- The fraction divided by `10 ^ e`. -/
def Ratio.downscale (r : Ratio) (e : Int) : Ratio :=
  if 0 ≤ e then ⟨r.num, r.den * Nat.pow 10 e.toNat⟩ else ⟨r.num * Nat.pow 10 (-e).toNat, r.den⟩

/-- The number of decimal digits; zero has one. -/
def digitCount (n : Nat) : Nat :=
  (Nat.toDigits 10 n).length

/-- The exponent of the first decimal digit of a positive fraction. -/
def leading (r : Ratio) : Int :=
  if r.den ≤ r.num then digitCount (r.num / r.den) - 1
  else
    let places := digitCount (r.den / r.num) - 1
    if r.den ≤ r.num * Nat.pow 10 places then -places else -places - 1

/-- The reals that round to a double: a quarter of the last place is the unit of all three bounds. -/
structure Interval where
  low : Nat
  middle : Nat
  high : Nat
  /-- Both ends round to the double. -/
  closed : Bool
  /-- The exponent of the unit. -/
  unit : Int

/-- The interval of a positive finite double. Below a power of two the neighbour is half as far. -/
def interval (x : Double) : Interval :=
  let m := x.significand
  let tight := x.fractionBits = 0 ∧ 1 < x.exponentBits
  ⟨4 * m - (if tight then 1 else 2), 4 * m, 4 * m + 2, m % 2 == 0, x.scale - 2⟩

/-- A point of the grid with step `10 ^ step` lies in the interval. -/
def holds (i : Interval) (step : Int) (point : Nat) : Bool :=
  let low := (Ratio.ofBinary i.low i.unit).downscale step
  let high := (Ratio.ofBinary i.high i.unit).downscale step
  if i.closed then low.num ≤ point * low.den && point * high.den ≤ high.num
  else low.num < point * low.den && point * high.den < high.num

/-- Which of two equally near grid points is taken. -/
inductive Tie where
  | toEven
  | up
deriving DecidableEq

/-- The grid point that a tie goes to. -/
def Tie.pick : Tie → Nat → Nat
  | .toEven, below => if below % 2 = 0 then below else below + 1
  | .up, below => below + 1

/-- The nearer of two neighbouring grid points. -/
def nearer (tie : Tie) (middle : Ratio) (below : Nat) : Nat :=
  let twice := 2 * middle.num
  let half := (2 * below + 1) * middle.den
  if twice < half then below
  else if half < twice then below + 1
  else tie.pick below

/-- The best grid point of the interval, if the grid with this step has one. -/
def onGrid? (tie : Tie) (i : Interval) (step : Int) : Option Nat :=
  let middle := (Ratio.ofBinary i.middle i.unit).downscale step
  let below := middle.num / middle.den
  match holds i step below, holds i step (below + 1) with
  | true, true => some (nearer tie middle below)
  | true, false => some below
  | false, true => some (below + 1)
  | false, false => none

/-- Digits with the exponent of the last one. -/
structure Digits where
  digits : Nat
  exponent : Int
deriving DecidableEq

/-- Drops trailing zeros. A number has no more of them than digits, which bounds the search. -/
def trim : Nat → Digits → Digits
  | 0, d => d
  | n + 1, d => if d.digits % 10 = 0 ∧ d.digits ≠ 0 then trim n ⟨d.digits / 10, d.exponent + 1⟩ else d

/-- Tries finer and finer grids, starting at the given number of digits. -/
def search (tie : Tie) (i : Interval) (first : Int) : Nat → Nat → Digits
  | 0, _ => ⟨0, 0⟩
  | rest + 1, count =>
    let step := first - count + 1
    match onGrid? tie i step with
    | some point => trim 20 ⟨point, step⟩
    | none => search tie i first rest (count + 1)

/-- The shortest digits of a finite double's magnitude. Seventeen digits always suffice. -/
def digits (tie : Tie) (x : Double) : Digits :=
  if x.significand = 0 then ⟨0, 0⟩
  else
    let i := interval x
    search tie i (leading (Ratio.ofBinary i.middle i.unit)) 17 1

end EntityGraph.Shortest
