/-! The place in a text that a message may end with. -/

namespace EntityGraph.Position

/-- What follows some characters at the front. -/
def after? : List Char → List Char → Option (List Char)
  | [], cs => some cs
  | x :: xs, c :: cs => if x = c then after? xs cs else none
  | _ :: _, [] => none

/-- What follows a number at the front. It has at most sixty-four bits, and its last digit comes first. -/
def afterNumber? (cs : List Char) : Option (List Char) :=
  let digits := cs.takeWhile Char.isDigit
  let value := digits.foldr (fun d n => 10 * n + (d.toNat - '0'.toNat)) 0
  if digits.isEmpty ∨ Nat.pow 2 64 ≤ value then none else some (cs.drop digits.length)

/-- A text without the line and column at its end, if it has them. -/
def strip (text : String) : String :=
  let place := do
    let rest ← afterNumber? text.toList.reverse
    let rest ← after? " column ".toList.reverse rest
    let rest ← afterNumber? rest
    after? " at line ".toList.reverse rest
  match place with
  | some front => String.ofList front.reverse
  | none => text

end EntityGraph.Position
