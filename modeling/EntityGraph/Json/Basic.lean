import EntityGraph.Number.Decimal
import EntityGraph.Ordered

/-! JSON documents and their text. -/

namespace EntityGraph

/-- A JSON number: an integer of at most sixty-four bits with or without sign, or a finite double. -/
inductive Number where
  | integer (n : Int)
  | double (x : Double)
deriving DecidableEq

namespace Number

/-- The number as a signed integer of sixty-four bits. -/
def int64? : Number → Option Int64
  | .integer n => if Int64.minValue.toInt ≤ n ∧ n ≤ Int64.maxValue.toInt then some (Int64.ofInt n) else none
  | .double _ => none

/-- The nearest double. -/
def toDouble : Number → Double
  | .integer n => Decimal.ofInt n
  | .double x => x

end Number

/-- A JSON document. The members of an object stand in key order, each key once. -/
inductive Json where
  | null
  | bool (b : Bool)
  | number (n : Number)
  | string (s : String)
  | array (items : List Json)
  | object (members : List (String × Json))

namespace Json

/-- What an error message calls the document. -/
def describe : Json → String
  | .null => "null"
  | .bool _ => "boolean"
  | .number _ => "number"
  | .string _ => "string"
  | .array _ => "array"
  | .object _ => "object"

/-- Doubles are positional from a hundred thousandth up to sixteen digits, and a tie goes to the even digit. -/
def doubleFormat : Decimal.Format := ⟨-5, 15, true, .toEven⟩

/-- The text of a number. -/
def numberChars : Number → List Char
  | .integer n => Decimal.intChars n
  | .double x => Decimal.finiteChars doubleFormat x

/-- A hexadecimal digit. -/
def hexChar (n : Nat) : Char :=
  if n < 10 then Char.ofNat (48 + n) else Char.ofNat (87 + n)

/-- One character between quotes: quotes, backslashes and control characters are escaped. -/
def escape (c : Char) : List Char :=
  if c = '"' then ['\\', '"']
  else if c = '\\' then ['\\', '\\']
  else if 32 ≤ c.toNat then [c]
  else if c.toNat = 8 then ['\\', 'b']
  else if c.toNat = 9 then ['\\', 't']
  else if c.toNat = 10 then ['\\', 'n']
  else if c.toNat = 12 then ['\\', 'f']
  else if c.toNat = 13 then ['\\', 'r']
  else ['\\', 'u', '0', '0', hexChar (c.toNat / 16), hexChar (c.toNat % 16)]

/-- The text of a string. -/
def stringChars (s : String) : List Char :=
  '"' :: (s.toList.flatMap escape ++ ['"'])

/-- Texts with commas between them. -/
def commaChars : List (List Char) → List Char
  | [] => []
  | [text] => text
  | text :: rest => text ++ ',' :: commaChars rest

/-- The text of a member. -/
def memberChars (m : String × List Char) : List Char :=
  stringChars m.1 ++ ':' :: m.2

mutual

/-- The text without blanks, members in the order in which they stand. -/
def chars : Json → List Char
  | .null => ['n', 'u', 'l', 'l']
  | .bool true => ['t', 'r', 'u', 'e']
  | .bool false => ['f', 'a', 'l', 's', 'e']
  | .number n => numberChars n
  | .string s => stringChars s
  | .array items => '[' :: (commaChars (itemChars items) ++ [']'])
  | .object members => '\x7b' :: (commaChars ((memberTexts members).map memberChars) ++ ['\x7d'])

/-- The texts of the items. -/
def itemChars : List Json → List (List Char)
  | [] => []
  | j :: rest => j.chars :: itemChars rest

/-- The texts of the members' values. -/
def memberTexts : List (String × Json) → List (String × List Char)
  | [] => []
  | (k, j) :: rest => (k, j.chars) :: memberTexts rest

end

mutual

/-- The text without blanks, members in key order at every level. -/
def canonicalChars : Json → List Char
  | .array items => '[' :: (commaChars (canonicalItems items) ++ [']'])
  | .object members =>
    '\x7b' :: (commaChars ((Entries.ofList (canonicalMembers members)).map memberChars) ++ ['\x7d'])
  | j => j.chars

/-- The canonical texts of the items. -/
def canonicalItems : List Json → List (List Char)
  | [] => []
  | j :: rest => j.canonicalChars :: canonicalItems rest

/-- The canonical texts of the members' values. -/
def canonicalMembers : List (String × Json) → List (String × List Char)
  | [] => []
  | (k, j) :: rest => (k, j.canonicalChars) :: canonicalMembers rest

end

end Json

end EntityGraph
