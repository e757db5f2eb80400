import EntityGraph.Schema.Error

/-! Compiled schemas: layouts with everything that is known about them before any record exists. -/

namespace EntityGraph

/-- A contextual field to derive again. -/
inductive Reaction where
  /-- On the record that changed. -/
  | own (type field : String)
  /-- On every live record of the type. -/
  | broadcast (type field : String)
deriving DecidableEq

/-- A compiled trigger, kept with the type that it observes. -/
structure Rule where
  condition : Condition
  reaction : Reaction
deriving DecidableEq

/-- A field with what the analysis found out about it. -/
structure FieldInfo extends FieldDecl where
  /-- Dangerous itself, or able to hold a record with dangerous data in it. -/
  reachesDangerous : Bool
  /-- Able to hold an identifiable record at some depth. -/
  mayLink : Bool
deriving DecidableEq

/-- A record type with what the analysis found out about it. -/
structure Layout where
  /-- Tells apart the schemas that compiled equal declarations. -/
  serial : Nat
  name : String
  action : Option Priority
  fields : List FieldInfo
  /-- Positions of the fields on the wire, by compat id. -/
  wireOrder : List Nat
  /-- Positions of the pure derivations, each after those it reads. -/
  deriveOrder : List Nat
  /-- Positions of the contextual derivations. -/
  contextual : List Nat
  /-- What reacts to changes of this type. -/
  rules : List Rule
  /-- Some field is part of the identity. -/
  identifiable : Bool
  /-- Records of this type can hold dangerous data at some depth. -/
  dangerousCapable : Bool
  /-- Records of this type can hold identifiable records below the top. -/
  containsIdentifiable : Bool
deriving DecidableEq

namespace Layout

/-- The position of a name. -/
def indexOf? (l : Layout) (name : String) : Option Nat :=
  l.fields.findIdx? fun f => f.name == name

/-- The field of a name. -/
def field? (l : Layout) (name : String) : Option FieldInfo :=
  l.fields.find? fun f => f.name == name

end Layout

/-- A checked and analysed declaration. -/
structure Schema where
  serial : Nat
  types : List Layout
  enums : List Enumeration
  opens : List OpenType
deriving DecidableEq

namespace Schema

/-- The layout of a type name. -/
def type? (s : Schema) (name : String) : Option Layout :=
  s.types.find? fun t => t.name == name

/-- The enumeration of a name. -/
def enum? (s : Schema) (name : String) : Option Enumeration :=
  s.enums.find? fun e => e.name == name

/-- The open type of a name. -/
def open? (s : Schema) (name : String) : Option OpenType :=
  s.opens.find? fun o => o.name == name

/-- The layout of a member of an open type; other names stay unknown. -/
def member? (s : Schema) (openName typeName : String) : Option Layout := do
  let o ← s.open? openName
  if o.members.contains typeName then s.type? typeName else none

end Schema

end EntityGraph
