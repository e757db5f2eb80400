/-! The shapes that a field's value may have. -/

namespace EntityGraph

/-- The shape of a field's value. -/
inductive Kind where
  | bool
  | int
  | double
  | text
  /-- A value of a closed enumeration. -/
  | enum (name : String)
  /-- A record of one type. -/
  | record (name : String)
  /-- A record of any member type, or one whose type is not known here. -/
  | openType (name : String)
  /-- An ordered list whose elements may be null. -/
  | list (element : Kind)
  /-- A map from text whose values may be null. -/
  | map (element : Kind)
deriving DecidableEq

namespace Kind

/-- Lists and maps. -/
def isCollection : Kind → Bool
  | .list _ | .map _ => true
  | _ => false

/-- What an error message says was expected. -/
def describe : Kind → String
  | .bool => "a boolean"
  | .int => "an integer"
  | .double => "a number"
  | .text => "a string"
  | .enum _ => "an enum string"
  | .record _ => "an object"
  | .openType _ => "an object with __typename"
  | .list _ => "an array"
  | .map _ => "an object map"

/-- The kind of the elements; a kind without elements stands for itself. -/
def element : Kind → Kind
  | .list k | .map k => k
  | k => k

end Kind

end EntityGraph
