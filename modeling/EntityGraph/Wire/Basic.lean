import EntityGraph.Bytes.Utf8
import EntityGraph.Limits
import EntityGraph.Number.Double
import EntityGraph.Wire.Error

/-! Integers, texts, doubles and bits as bytes. -/

namespace EntityGraph.Wire

/-- Groups of seven bits, the low ones first; all but the last byte have the high bit set. -/
def varint (n : Nat) : List UInt8 :=
  if n < 128 then [n.toUInt8] else (n % 128 + 128).toUInt8 :: varint (n / 128)
termination_by n
decreasing_by omega

/-- Signs are interleaved so that small magnitudes stay short: 0, -1, 1, -2 become 0, 1, 2, 3. -/
def zigzag (n : Int64) : Nat :=
  if 0 ≤ n.toInt then 2 * n.toInt.toNat else 2 * (-n.toInt).toNat - 1

/-- The signed integer of an interleaved one. -/
def unzigzag (n : Nat) : Int64 :=
  if n % 2 = 0 then Int64.ofInt (n / 2 : Nat) else Int64.ofInt (-((n + 1) / 2 : Nat))

/-- Bytes after their number. -/
def prefixed (bytes : List UInt8) : List UInt8 :=
  varint bytes.length ++ bytes

/-- A text's bytes after their number. -/
def text (s : String) : List UInt8 :=
  prefixed (Utf8.encode s)

/-- The low bytes of a number, the lowest first. -/
def littleEndian : Nat → Nat → List UInt8
  | 0, _ => []
  | width + 1, n => n.toUInt8 :: littleEndian width (n / 256)

/-- The number of bytes with the lowest first. -/
def ofLittleEndian : List UInt8 → Nat
  | [] => 0
  | b :: rest => b.toNat + 256 * ofLittleEndian rest

/-- The eight bytes of a double, every payload kept. -/
def double (x : Double) : List UInt8 :=
  littleEndian 8 x.bits.toNat

/-- One byte for a truth value. -/
def bool (b : Bool) : UInt8 :=
  if b then 1 else 0

/-- The byte of up to eight bits, the first one lowest. -/
def packByte : List Bool → UInt8
  | [] => 0
  | b :: rest => bool b + 2 * packByte rest

/-- Bits in bytes, after those already packed, which stand latest first. -/
def packInto (out : List UInt8) : List Bool → List UInt8
  | b0 :: b1 :: b2 :: b3 :: b4 :: b5 :: b6 :: b7 :: rest =>
    packInto (packByte [b0, b1, b2, b3, b4, b5, b6, b7] :: out) rest
  | [] => out.reverse
  | bits => (packByte bits :: out).reverse

/-- Bits in bytes, the first one lowest, filled up with zeros. -/
def packBits (bits : List Bool) : List UInt8 :=
  packInto [] bits

/-- The eight bits of a byte, the lowest first. -/
def unpackByte (b : UInt8) : List Bool :=
  (List.range 8).map fun i => b.toNat.testBit i

/-- The bits of bytes, the lowest of each first. -/
def unpackBits (bytes : List UInt8) : List Bool :=
  bytes.flatMap unpackByte

/-- Reads the front of some bytes; what is left stays known if the reading fails. -/
abbrev Reader := EStateM DecodeError (List UInt8)

namespace Reader

/-- One byte. -/
def byte (context : String) : Reader UInt8 := fun bytes =>
  match bytes with
  | [] => .error (.unexpectedEnd context) []
  | b :: rest => .ok b rest

/-- The given number of bytes; nothing is taken if there are fewer. -/
def take (n : Nat) (context : String) : Reader (List UInt8) := fun bytes =>
  let front := bytes.take n
  if front.length < n then .error (.unexpectedEnd context) bytes else .ok front (bytes.drop n)

/-- A byte that is zero or one. -/
def bool (context : String) : Reader Bool := do
  let b ← byte context
  if b = 0 then return false
  else if b = 1 then return true
  else throw (.invalidBool b)

/-- The groups from the given one on, the low ones first. Only one bit is left for the last group. -/
def groups (context : String) : Nat → Reader Nat
  | 0 => throw .varintTooLong
  | left + 1 => do
    let b ← byte context
    let low := b.toNat % 128
    if left = 0 ∧ 1 < low then throw .varintOverflow
    else if b < 128 then return low
    else do
      let high ← groups context left
      return low + 128 * high

/-- An integer of at most sixty-four bits in at most ten groups. -/
def varint (context : String) : Reader Nat :=
  groups context Limits.varintGroups

/-- A number of things that may not exceed the limit. -/
def length (limit : Nat) (field : String) : Reader Nat := do
  let n ← varint field
  if limit < n then throw (.tooLong field n limit) else return n

/-- A signed integer. -/
def signed (context : String) : Reader Int64 := do
  let n ← varint context
  return unzigzag n

/-- Bytes after their number. -/
def prefixed (limit : Nat) (field : String) : Reader (List UInt8) := do
  let n ← length limit field
  take n field

/-- A text after the number of its bytes. -/
def text (limit : Nat) (field : String) : Reader String := do
  let bytes ← prefixed limit field
  match Utf8.decode? bytes with
  | some s => return s
  | none => throw (.invalidText field)

/-- A double. -/
def double (context : String) : Reader Double := do
  let bytes ← take 8 context
  return ⟨(ofLittleEndian bytes).toUInt64⟩

/-- The first of some bits. -/
def bit (context : String) : List Bool → Reader (Bool × List Bool)
  | [] => throw (.unexpectedEnd context)
  | b :: rest => return (b, rest)

end Reader

end EntityGraph.Wire
