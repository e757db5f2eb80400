import EntityGraph.Text.Quoted

/-! Why a record cannot be written, or bytes not be read. -/

namespace EntityGraph

/-- Why a record cannot be written. -/
inductive EncodeError where
  | tooLong (field : String) (length limit : Nat)
  | kindMismatch (type field : String)
  | tooDeep (limit : Nat)
  | compressionFailed (reason : String)
deriving DecidableEq

/-- The wording. -/
def EncodeError.message : EncodeError → String
  | .tooLong field length limit => s!"{field} has {length} entries, limit is {limit}"
  | .kindMismatch type field => s!"value of field {type}.{field} does not match its declared kind"
  | .tooDeep limit => s!"nesting depth exceeds maximum {limit}"
  | .compressionFailed reason => s!"zstd rejected the payload: {reason}"

/-- Why bytes cannot be read. -/
inductive DecodeError where
  | badMagic (found : List UInt8)
  | unsupportedVersion (version : UInt8)
  | unknownType (name : String)
  | unknownEnumId (name : String) (id : Nat)
  | invalidText (field : String)
  | unexpectedEnd (context : String)
  | varintTooLong
  | varintOverflow
  | tooLong (field : String) (length limit : Nat)
  | invalidBool (value : UInt8)
  | tooDeep (limit : Nat)
  | malformed (context : String)
  /-- The compressed part is no frame, for a reason. -/
  | badFrame (reason : String)
  | sizeMismatch (declared actual : Nat)
deriving DecidableEq

namespace DecodeError

/-- A stable code for the class of the error. -/
def code : DecodeError → String
  | .badMagic _ | .unsupportedVersion _ => "E001"
  | .unknownType _ | .unknownEnumId _ _ => "E002"
  | .invalidText _ => "E004"
  | _ => "E005"

/-- The wording after the code. -/
def reason : DecodeError → String
  | .badMagic found =>
    "invalid magic bytes: expected THG1 or THG1Z, found [" ++
      ", ".intercalate (found.map fun b => toString b.toNat) ++ "]"
  | .unsupportedVersion version => s!"snapshot format version {version} is not supported"
  | .unknownType name => "unknown type " ++ Quoted.quote name
  | .unknownEnumId name id => s!"unknown id {id} for enum {name}"
  | .invalidText field => s!"{field} is not valid UTF-8"
  | .unexpectedEnd context => s!"input ended while reading {context}"
  | .varintTooLong => "varint longer than 10 bytes"
  | .varintOverflow => "varint does not fit in 64 bits"
  | .tooLong field length limit => s!"{field} declares {length} entries, limit is {limit}"
  | .invalidBool value => s!"bool byte must be 0 or 1, got {value}"
  | .tooDeep limit => s!"nesting depth exceeds maximum {limit}"
  | .malformed context => s!"malformed {context}"
  | .badFrame reason => s!"zstd payload rejected: {reason}"
  | .sizeMismatch declared actual => s!"payload inflated to {actual} bytes, header declared {declared}"

/-- The wording. -/
def message (e : DecodeError) : String :=
  s!"[{e.code}] {e.reason}"

end DecodeError

end EntityGraph
