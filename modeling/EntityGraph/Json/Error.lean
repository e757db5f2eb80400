import EntityGraph.Kind
import EntityGraph.Text.Position
import EntityGraph.Text.Quoted

/-! Why a JSON document is not a record of a type. -/

namespace EntityGraph

/-- What is wrong with a document or its text. -/
inductive JsonError where
  | unexpectedToken (expected found : String)
  | invalidField (type field expected : String)
  | missingTypeName
  | unknownType (name : String)
  | tooDeep (limit : Nat)
  /-- The text is not JSON. -/
  | malformed
  /-- The text has a token of another sort at the top. -/
  | wrongToken (found expected : String)
  /-- A number is out of range. -/
  | wrongValue (found expected : String)
  /-- The reason that stopped the reading of a text. -/
  | inText (reason : JsonError)
deriving DecidableEq

/-- The wording. What stopped the reading of a text is told without the place. -/
def JsonError.message : JsonError → String
  | .unexpectedToken expected found => s!"unexpected JSON token: expected {expected}, found {found}"
  | .invalidField type field expected => s!"field {type}.{field} expected {expected}"
  | .missingTypeName => "open type value is missing its __typename discriminator"
  | .unknownType name => "unknown type " ++ Quoted.quote name
  | .tooDeep limit => s!"nesting depth exceeds maximum {limit}"
  | .malformed => "syntax"
  | .wrongToken found expected => s!"invalid type: {found}, expected {expected}"
  | .wrongValue found expected => s!"invalid value: {found}, expected {expected}"
  | .inText reason => Position.strip reason.message

end EntityGraph
