import EntityGraph.Bytes.Utf8
import EntityGraph.Json.Basic

/-! The tokens of a JSON text as a tree, before anything is decided about their values. -/

namespace EntityGraph

/-- A number as it is written: `digits * 10 ^ (exponent - places)`, with its sign. -/
structure Literal where
  negative : Bool
  /-- All digits before and after the point. -/
  digits : Nat
  /-- How many of them stand after the point. -/
  places : Nat
  exponent : Int
  /-- Written without a point and without an exponent. -/
  whole : Bool
deriving DecidableEq

/-- The number of a literal, unless it is past the largest double. Whole literals that fit are integers; minus
zero is not one. -/
def Literal.number? (l : Literal) : Option Number :=
  if l.whole ∧ ¬ l.negative ∧ l.digits < UInt64.size then some (.integer l.digits)
  else if l.whole ∧ l.negative ∧ 0 < l.digits ∧ l.digits ≤ Nat.pow 2 63 then some (.integer (-l.digits))
  else (Decimal.toDouble? l.negative l.digits (l.exponent - l.places)).map .double

/-- The tokens of a text, as far as it is JSON. Repeated keys are kept. An array or object that is not closed has
the text break off after its last item. -/
inductive TokenTree where
  | null
  | bool (b : Bool)
  | number (l : Literal)
  /-- A string between quotes; none for one that is no text. -/
  | string (s : Option String)
  | array (items : List TokenTree) (closed : Bool)
  | object (members : List (Option String × TokenTree)) (closed : Bool)

namespace TokenTree

mutual

/-- The text does not break off inside the tree. -/
def isWhole : TokenTree → Bool
  | .array items closed => closed && itemsWhole items
  | .object members closed => closed && membersWhole members
  | _ => true

/-- The text does not break off inside the items. -/
def itemsWhole : List TokenTree → Bool
  | [] => true
  | t :: rest => t.isWhole && itemsWhole rest

/-- The text does not break off inside the members. -/
def membersWhole : List (Option String × TokenTree) → Bool
  | [] => true
  | (_, t) :: rest => t.isWhole && membersWhole rest

end

/-- How many arrays and objects may stand inside each other. -/
def levels : Nat := 127

mutual

/-- The document that the tokens spell, with at most the given levels of nesting. The last of a repeated key
counts. -/
def toJson? : TokenTree → Nat → Option Json
  | .null, _ => some .null
  | .bool b, _ => some (.bool b)
  | .number l, _ => l.number?.map .number
  | .string s, _ => s.map .string
  | .array items closed, room + 1 =>
    if closed then (itemsToJson? items room).map .array else none
  | .object members closed, room + 1 =>
    if closed then (membersToJson? members room []).map .object else none
  | _, 0 => none

/-- The documents of the items. -/
def itemsToJson? : List TokenTree → Nat → Option (List Json)
  | [], _ => some []
  | t :: rest, room => do
    let j ← t.toJson? room
    let js ← itemsToJson? rest room
    return j :: js

/-- The documents of the members, added to those before them. -/
def membersToJson? : List (Option String × TokenTree) → Nat → List (String × Json) →
    Option (List (String × Json))
  | [], _, before => some before
  | (none, _) :: _, _, _ => none
  | (some k, t) :: rest, room, before => do
    let j ← t.toJson? room
    membersToJson? rest room (Entries.insert k j before)

end

end TokenTree

end EntityGraph
