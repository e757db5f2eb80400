import EntityGraph.Bytes.Hex
import EntityGraph.Bytes.Sha256
import EntityGraph.Record.Basic
import EntityGraph.Wire.Basic

/-! Leaves combined with a keystream that comes from a secret.

Numbers and booleans keep their kind. Texts become a mark and hexadecimal digits, and values of enumerations become
values that are not listed, whose names are such texts: both stay valid on the wire and in documents. -/

namespace EntityGraph

/-- What leaves are masked with: a key, and a hash that makes thirty-two bytes of any message. -/
structure Mask where
  key : List UInt8
  hash : List UInt8 → List UInt8
  length_hash : ∀ message, (hash message).length = 32

namespace Mask

/-- The mask of a secret. -/
def ofSecret (secret : List UInt8) : Mask :=
  ⟨Sha256.hash secret, Sha256.hash, Sha256.length_hash⟩

/-- A text that does not give the key away. -/
def display (_ : Mask) : String :=
  "KeyedRedactor(..)"

/-- One block of the keystream. -/
def block (m : Mask) (counter : Nat) : List UInt8 :=
  m.hash (m.key ++ Wire.littleEndian 8 counter)

/-- The first bytes of the keystream. -/
def keystream (m : Mask) (length : Nat) : List UInt8 :=
  ((List.range ((length + 31) / 32)).flatMap m.block).take length

/-- Bytes combined with the keystream; doing it twice undoes it. -/
def combine (m : Mask) (bytes : List UInt8) : List UInt8 :=
  List.zipWith (· ^^^ ·) bytes (m.keystream bytes.length)

/-- The word that numbers are combined with. -/
def word (m : Mask) : UInt64 :=
  (Wire.ofLittleEndian (m.keystream 8)).toUInt64

/-- What sealed texts start with. -/
def mark : String := "redacted:"

/-- A text that hides another. -/
def conceal (m : Mask) (plain : String) : String :=
  mark ++ Hex.encode (m.combine (Utf8.encode plain))

/-- The text after the mark. -/
def unmarked? (text : String) : Option (List Char) :=
  if mark.toList.isPrefixOf text.toList then some (text.toList.drop mark.length) else none

/-- The text that a sealed one hides. -/
def reveal? (m : Mask) (sealed : String) : Option String := do
  let digits ← unmarked? sealed
  let bytes ← Hex.ofChars? digits
  Utf8.decode? (m.combine bytes)

/-- The number and the name of a value, for sealing. -/
def enumText (e : EnumValue) : String :=
  toString e.id.toNat ++ ":" ++ e.name

/-- A decimal number of at most thirty-two bits. A plus sign and zeros may stand in front. -/
def readId? (chars : List Char) : Option UInt32 :=
  let digits := match chars with
    | '+' :: rest => rest
    | _ => chars
  if digits.isEmpty || !digits.all Char.isDigit then none
  else
    let n := digits.foldl (fun n c => 10 * n + (c.toNat - 48)) 0
    if n < UInt32.size then some n.toUInt32 else none

/-- The value that a text of number and name stands for. -/
def readEnum? (text : String) : Option EnumValue :=
  let id := text.toList.takeWhile (· != ':')
  match text.toList.drop id.length with
  | [] => none
  | _ :: name => (readId? id).map (⟨·, String.ofList name⟩)

/-- The value of an enumeration that a sealed one hides. -/
def revealEnum? (m : Mask) (e : EnumValue) : Option EnumValue :=
  if e.isDynamic then (m.reveal? e.name).bind readEnum? else none

/-- Numbers and booleans combined with the keystream; anything else stays. -/
def combineValue (m : Mask) : Value → Value
  | .bool b => .bool (b ^^ (m.word &&& 1 == 1))
  | .int n => .int (n.toUInt64 ^^^ m.word).toInt64
  | .double x => .double ⟨x.bits ^^^ m.word⟩
  | v => v

/-- Hides a leaf. -/
def redact (m : Mask) : Value → Value
  | .text s => .text (m.conceal s)
  | .enum e => .enum (EnumValue.dynamic (m.conceal (enumText e)))
  | v => m.combineValue v

/-- Shows a leaf again. What is not sealed stays as it is. -/
def unredact (m : Mask) : Value → Value
  | .text s => .text ((m.reveal? s).getD s)
  | .enum e => .enum ((m.revealEnum? e).getD e)
  | v => m.combineValue v

end Mask

end EntityGraph
