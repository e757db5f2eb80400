import EntityGraph.Kind
import EntityGraph.Text.Quoted

/-! What a schema is declared from: record types with their fields, enumerations and open types. -/

namespace EntityGraph

/-- Field names to follow from a record into the records it holds. -/
abbrev Path := List String

/-- How a derived field gets its value. The functions themselves are named, so that declarations are plain data. -/
inductive Derivation where
  /-- The first of the sibling fields that is not blank. -/
  | firstOf (sources : List String)
  /-- A function of the named sibling fields. -/
  | computed (inputs : List String) (formula : String)
  /-- A function of the record in its graph. -/
  | contextual (formula : String)
deriving DecidableEq

namespace Derivation

/-- A pure derivation depends on the record alone. -/
def isPure : Derivation → Bool
  | .contextual _ => false
  | _ => true

/-- The sibling fields that a pure derivation reads. -/
def inputs : Derivation → List String
  | .firstOf sources => sources
  | .computed names _ => names
  | .contextual _ => []

/-- A short text for listings. -/
def describe : Derivation → String
  | .firstOf sources => "FirstAvailable(" ++ Quoted.quoteList sources ++ ")"
  | .computed names _ => "Pure \x7b inputs: " ++ Quoted.quoteList names ++ ", .. \x7d"
  | .contextual _ => "Contextual"

end Derivation

/-- What a trigger watches for. -/
inductive Condition where
  /-- The value at the path differs from the earlier snapshot. -/
  | changed (path : Path)
  /-- The value at the path is declared and equal to the one in the earlier snapshot. -/
  | unchanged (path : Path)
  /-- A record that the collection held earlier changed at the path in the same round. -/
  | elementChanged (collection path : Path)
deriving DecidableEq

/-- A reason to derive a contextual field again. -/
structure Trigger where
  /-- The observed type; the declaring one if none is given. -/
  source : Option String
  condition : Condition
deriving DecidableEq

/-- One declared field. -/
structure FieldDecl where
  name : String
  kind : Kind
  /-- The stable number that orders fields on the wire. -/
  compatId : Nat
  /-- Part of the record's identity. -/
  identifying : Bool
  /-- Holds sensitive data. -/
  dangerous : Bool
  derivation : Option Derivation
  triggers : List Trigger
deriving DecidableEq

namespace FieldDecl

/-- Derived from the record alone. -/
def isPure (f : FieldDecl) : Bool :=
  f.derivation.any Derivation.isPure

/-- Derived from the record in its graph. -/
def isContextual (f : FieldDecl) : Bool :=
  f.derivation.any fun d => !d.isPure

/-- The sibling fields that the derivation reads. -/
def inputs (f : FieldDecl) : List String :=
  (f.derivation.map Derivation.inputs).getD []

/-- The derivation reads the field's own earlier value. -/
def readsItself (f : FieldDecl) : Bool :=
  f.inputs.contains f.name

/-- A pure derivation is recomputed after reading, so it stays off the wire unless its value is needed there. -/
def onWire (f : FieldDecl) : Bool :=
  !f.isPure || f.identifying || f.readsItself

end FieldDecl

/-- How urgently an action is sent. -/
inductive Priority where
  | immediate
  | soon
  | whenever
deriving DecidableEq

/-- One declared record type. -/
structure TypeDecl where
  name : String
  /-- The priority of an action; state has none. -/
  action : Option Priority
  fields : List FieldDecl
deriving DecidableEq

namespace TypeDecl

/-- The field of a name. -/
def field? (t : TypeDecl) (name : String) : Option FieldDecl :=
  t.fields.find? fun f => f.name == name

/-- The position of a name. -/
def indexOf? (t : TypeDecl) (name : String) : Option Nat :=
  t.fields.findIdx? fun f => f.name == name

/-- Some field is part of the identity. -/
def identifiable (t : TypeDecl) : Bool :=
  t.fields.any fun f => f.identifying

/-- Some field holds sensitive data. -/
def hasDangerous (t : TypeDecl) : Bool :=
  t.fields.any fun f => f.dangerous

end TypeDecl

/-- A closed enumeration. The number zero is left to values that it does not list. -/
structure Enumeration where
  name : String
  values : List (UInt32 × String)
deriving DecidableEq

namespace Enumeration

/-- The name listed for a number. -/
def nameOf? (e : Enumeration) (id : UInt32) : Option String :=
  (e.values.find? fun v => v.1 == id).map Prod.snd

/-- The number listed for a name. -/
def idOf? (e : Enumeration) (name : String) : Option UInt32 :=
  (e.values.find? fun v => v.2 == name).map Prod.fst

end Enumeration

/-- The two flavours of open types. -/
inductive OpenFlavour where
  | shared
  | variety
deriving DecidableEq

/-- A union of record types that readers meet with unknown members. -/
structure OpenType where
  name : String
  flavour : OpenFlavour
  members : List String
deriving DecidableEq

/-- Everything that a schema is compiled from, in the order of declaration. -/
structure Declarations where
  types : List TypeDecl
  enums : List Enumeration
  opens : List OpenType
deriving DecidableEq

namespace Declarations

/-- The type of a name. -/
def type? (d : Declarations) (name : String) : Option TypeDecl :=
  d.types.find? fun t => t.name == name

/-- The open type of a name. -/
def open? (d : Declarations) (name : String) : Option OpenType :=
  d.opens.find? fun o => o.name == name

end Declarations

end EntityGraph
