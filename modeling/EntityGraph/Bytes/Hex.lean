/-! Bytes as lowercase hexadecimal text. -/

namespace EntityGraph.Hex

/-- The digit of a value below sixteen. -/
def digit (n : UInt8) : Char :=
  if n < 10 then Char.ofNat (48 + n.toNat) else Char.ofNat (87 + n.toNat)

/-- The two digits of a byte, the high half first. -/
def pair (b : UInt8) : List Char :=
  [digit (b >>> 4), digit (b &&& 15)]

/-- The digits of bytes. -/
def chars (bytes : List UInt8) : List Char :=
  bytes.flatMap pair

/-- The text of the digits. -/
def encode (bytes : List UInt8) : String :=
  String.ofList (chars bytes)

/-- The value of a lowercase digit. Capital digits are not read. -/
def value? (c : Char) : Option UInt8 :=
  if '0' ≤ c ∧ c ≤ '9' then some (c.toNat - 48).toUInt8
  else if 'a' ≤ c ∧ c ≤ 'f' then some (c.toNat - 87).toUInt8
  else none

/-- Reads pairs of digits after those read before, which stand latest first. -/
def readPairs? (before : List UInt8) : List Char → Option (List UInt8)
  | [] => some before.reverse
  | [_] => none
  | high :: low :: rest =>
    match value? high, value? low with
    | some h, some l => readPairs? ((h <<< 4 ||| l) :: before) rest
    | _, _ => none

/-- Reads pairs of digits; an odd digit or a foreign character is refused. -/
def ofChars? (digits : List Char) : Option (List UInt8) :=
  readPairs? [] digits

/-- Reads the text of the digits. -/
def decode? (text : String) : Option (List UInt8) :=
  ofChars? text.toList

end EntityGraph.Hex
