import EntityGraph.Schema.Declaration

/-! Why a declaration is not a schema, or a value not a field of a record. -/

namespace EntityGraph

/-- What is wrong with a declaration, a name or a value. -/
inductive SchemaError where
  | duplicateName (name : String)
  | duplicateField (type field : String)
  | duplicateCompatId (type : String) (compatId : Nat)
  | unknownType (name : String)
  | unknownEnum (name : String)
  | unknownOpenType (name : String)
  | unknownField (type field : String)
  | invalidEnumId (name : String) (id : UInt32)
  | derivationCycle (type : String) (fields : List String)
  | invalidTriggerPath (type field : String) (path : Path)
  | notContextual (type field : String)
  | kindMismatch (type field : String)
deriving DecidableEq

/-- The wording. -/
def SchemaError.message : SchemaError → String
  | .duplicateName name => "name " ++ Quoted.quote name ++ " is defined more than once"
  | .duplicateField type field => s!"field {type}.{field} is defined more than once"
  | .duplicateCompatId type id => s!"compat id {id} is used by more than one field of {type}"
  | .unknownType name => "unknown type " ++ Quoted.quote name
  | .unknownEnum name => "unknown enum " ++ Quoted.quote name
  | .unknownOpenType name => "unknown open type " ++ Quoted.quote name
  | .unknownField type field => s!"unknown field {type}.{field}"
  | .invalidEnumId name id => s!"enum {name} uses reserved or duplicate id {id}"
  | .derivationCycle type fields =>
    s!"derived fields of {type} form a cycle through " ++ Quoted.quoteList fields
  | .invalidTriggerPath type field path =>
    s!"trigger on {type}.{field} has an unresolvable path " ++ Quoted.quoteList path
  | .notContextual type field =>
    s!"field {type}.{field} declares triggers but is not a contextual derivation"
  | .kindMismatch type field => s!"value for {type}.{field} does not match its declared kind"

end EntityGraph
