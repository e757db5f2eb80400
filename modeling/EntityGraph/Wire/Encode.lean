import EntityGraph.Record.Basic
import EntityGraph.Wire.Basic

/-! Records as bytes: the number of fields, then flags for all of them, then the values that are not flags.

A field's flags say whether it is declared, whether it is not null, the value of a boolean, and for a collection
whether it has elements and, if so, whether some are null. Nested records and the flags carry their length, so that
a reader can pass over what a newer writer added. -/

namespace EntityGraph.Wire

/-- The field being written, for error messages. -/
structure Site where
  type : String
  field : String

/-- The value at the site is not of its kind. -/
def Site.mismatch (site : Site) : EncodeError :=
  .kindMismatch site.type site.field

/-- The flags of a field, and its part of the payload. -/
abbrev Part := List Bool × List UInt8

/-- Presence bits, written only if some element is null. -/
def bitmap (present : List Bool) : List UInt8 :=
  if present.all id then [] else packBits present

/-- Collections have a greatest size. -/
def checkItems (count : Nat) : Except EncodeError Unit :=
  if Limits.collectionItems < count then .error (.tooLong "collection" count Limits.collectionItems)
  else .ok ()

/-- The number of a value, and the name of one that is not listed. -/
def enum (e : EnumValue) : List UInt8 :=
  varint e.id.toNat ++ if e.isDynamic then text e.name else []

/-- A text, which has a greatest size. -/
def boundedText (s : String) : Except EncodeError (List UInt8) :=
  if Limits.textBytes < s.utf8ByteSize then .error (.tooLong "text" s.utf8ByteSize Limits.textBytes)
  else .ok (text s)

/-- The body of a record whose type is not known. One that did not arrive as bytes has no fields. -/
def unknownBody : UnknownBody → List UInt8
  | .binary bytes => bytes
  | _ => [0]

/-- The fields in wire order: how many, their flags, their payload. -/
def assemble (parts : List Part) : List UInt8 :=
  let head := varint parts.length
  if parts.isEmpty then head
  else head ++ prefixed (packBits (parts.flatMap Prod.fst)) ++ parts.flatMap Prod.snd

/-- The parts at the wire positions, the first failure in wire order. -/
def inWireOrder (layout : Layout) (parts : List (Except EncodeError Part)) : Except EncodeError (List Part) :=
  layout.wireOrder.mapM fun i => parts[i]?.getD (.ok ([false], []))

/-- The part of a truth value: a flag of a field, or a byte inside a collection. -/
def boolPart (flagged b : Bool) : Part :=
  if flagged then ([b], []) else ([], [bool b])

/-- The part of a collection without elements. -/
def emptyPart (flagged : Bool) : Part :=
  if flagged then ([false], []) else ([], varint 0)

/-- The part of a collection with elements, of which the flags say whether they are present. -/
def collectionPart (flagged : Bool) (present : List Bool) (body : List UInt8) : Part :=
  let hasNull := !present.all id
  if flagged then ([true, hasNull], varint present.length ++ bitmap present ++ body)
  else ([], varint present.length ++ bool hasNull :: (bitmap present ++ body))

mutual

/-- A value, flagged if it stands in a field of its own. -/
def value (site : Site) (flagged : Bool) : Value → Kind → Nat → Except EncodeError Part
  | .bool b, .bool, _ => .ok (boolPart flagged b)
  | .int n, .int, _ => .ok ([], varint (zigzag n))
  | .double x, .double, _ => .ok ([], double x)
  | .text s, .text, _ => (boundedText s).map ([], ·)
  | .enum e, .enum _, _ => .ok ([], enum e)
  | .record r, .record name, depth =>
    if r.layout.name = name then (record r (depth + 1)).map fun bytes => ([], prefixed bytes)
    else .error site.mismatch
  | .record r, .openType _, depth =>
    (record r (depth + 1)).map fun bytes => ([], text r.layout.name ++ prefixed bytes)
  | .unknown u, .openType _, _ => .ok ([], text u.name ++ prefixed (unknownBody u.body))
  | .list vs, .list k, depth =>
    if vs.isEmpty then .ok (emptyPart flagged)
    else do
      checkItems vs.length
      let body ← items site vs k (if flagged then depth else depth + 1) []
      return collectionPart flagged (vs.map Option.isSome) body
  | .map es, .map k, depth =>
    if es.isEmpty then .ok (emptyPart flagged)
    else do
      checkItems es.length
      let body ← entries site es k (if flagged then depth else depth + 1) []
      return collectionPart flagged (es.map fun e => e.2.isSome) body
  | _, _, _ => .error site.mismatch

/-- The elements that are not null, after what is already written, which stands latest first. -/
def items (site : Site) : List (Option Value) → Kind → Nat → List UInt8 → Except EncodeError (List UInt8)
  | [], _, _, out => .ok out.reverse
  | none :: rest, kind, depth, out => items site rest kind depth out
  | some v :: rest, kind, depth, out => do
    let part ← value site false v kind depth
    items site rest kind depth (part.2.reverse ++ out)

/-- The keys with the values that are not null, after what is already written, which stands latest first. -/
def entries (site : Site) :
    List (String × Option Value) → Kind → Nat → List UInt8 → Except EncodeError (List UInt8)
  | [], _, _, out => .ok out.reverse
  | (k, none) :: rest, kind, depth, out => entries site rest kind depth ((text k).reverse ++ out)
  | (k, some v) :: rest, kind, depth, out => do
    let part ← value site false v kind depth
    entries site rest kind depth (part.2.reverse ++ ((text k).reverse ++ out))

/-- A record at the given depth. -/
def record : RecordOf Value → Nat → Except EncodeError (List UInt8)
  | ⟨layout, values⟩, depth =>
    if Limits.depth < depth then .error (.tooDeep Limits.depth)
    else (inWireOrder layout (fields layout.name values layout.fields depth)).map assemble

/-- The parts of the fields, in the order of their declaration. -/
def fields (type : String) :
    List (Field Value) → List FieldInfo → Nat → List (Except EncodeError Part)
  | .value v :: rest, info :: infos, depth =>
    (value ⟨type, info.name⟩ true v info.kind depth).map (fun part => (true :: true :: part.1, part.2)) ::
      fields type rest infos depth
  | .null :: rest, _ :: infos, depth => .ok ([true, false], []) :: fields type rest infos depth
  | .absent :: rest, _ :: infos, depth => .ok ([false], []) :: fields type rest infos depth
  | _, _, _ => []

end

/-- The bytes of a record. -/
def encode (r : Record) : Except EncodeError (List UInt8) :=
  record r 0

end EntityGraph.Wire
