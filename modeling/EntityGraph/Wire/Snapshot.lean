import EntityGraph.Wire.Decode
import EntityGraph.Wire.Encode

/-! Snapshots: records that say what they are.

A plain snapshot is a magic number, a format version, the name of the type and the record. A compressed one is another
magic number, the size of the plain snapshot and a frame that holds it. How frames are made and read is left to a
compression library. -/

namespace EntityGraph

/-- A compression library. Both of its functions may fail, for a reason. -/
structure Compression where
  /-- The frame of some bytes, made at a level. -/
  pack : Int32 → List UInt8 → Except String (List UInt8)
  /-- The contents of a frame, of which no more than a number of bytes are asked for. -/
  unpack : Nat → List UInt8 → Except String (List UInt8)

namespace Snapshot

/-- How a snapshot is written: compressed at a level, or plain. -/
structure Options where
  level : Option Int32 := none

/-- The plain snapshot of a record. -/
def encodePlain (r : Record) : Except EncodeError (List UInt8) := do
  let body ← Wire.encode r
  return Limits.plainMagic ++ Limits.formatVersion :: (Wire.text r.typeName ++ body)

/-- The compressed form of a plain snapshot. -/
def compress (c : Compression) (level : Int32) (snapshot : List UInt8) : Except EncodeError (List UInt8) :=
  match c.pack level snapshot with
  | .error reason => .error (.compressionFailed reason)
  | .ok frame => .ok (Limits.compressedMagic ++ Wire.varint snapshot.length ++ frame)

/-- The snapshot of a record. -/
def encode (c : Compression) (options : Options) (r : Record) : Except EncodeError (List UInt8) := do
  let snapshot ← encodePlain r
  match options.level with
  | none => return snapshot
  | some level => compress c level snapshot

/-- The record after the plain magic number. -/
def plain (formulas : Formulas) (schema : Schema) : Wire.Reader Record := do
  let magic ← Wire.Reader.take 4 "magic"
  if magic = Limits.plainMagic then do
    let version ← Wire.Reader.byte "version"
    if Limits.oldestFormatVersion ≤ version ∧ version ≤ Limits.formatVersion then do
      let name ← Wire.Reader.text Limits.textBytes "type_name"
      match schema.type? name with
      | some layout => Wire.Reader.topRecord formulas schema layout
      | none => throw (.unknownType name)
    else throw (.unsupportedVersion version)
  else throw (.badMagic magic)

/-- The plain snapshot in what follows the compressed magic number. One byte more than declared is asked for, so that
an overrun is seen. -/
def decompress (c : Compression) : Wire.Reader (List UInt8) := do
  let size ← Wire.Reader.length Limits.snapshotBytes "uncompressed_size"
  let frame ← get
  match c.unpack (size + 1) frame with
  | .error reason => throw (.badFrame reason)
  | .ok contents =>
    if contents.length = size then return contents else throw (.sizeMismatch size contents.length)

/-- The record of a snapshot, compressed or not. -/
def decode (c : Compression) (formulas : Formulas) (schema : Schema) (bytes : List UInt8) :
    Except DecodeError Record :=
  if bytes.length < 4 then .error (.unexpectedEnd "magic")
  else if bytes.take 5 = Limits.compressedMagic then do
    let contents ← (decompress c).run (bytes.drop 5)
    (plain formulas schema).run contents
  else if Limits.snapshotBytes < bytes.length then
    .error (.tooLong "snapshot" bytes.length Limits.snapshotBytes)
  else (plain formulas schema).run bytes

end Snapshot

end EntityGraph
