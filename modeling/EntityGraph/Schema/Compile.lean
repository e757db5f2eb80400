import EntityGraph.Ordered
import EntityGraph.Schema.DeriveOrder
import EntityGraph.Schema.References
import EntityGraph.Schema.Rules

/-! From declarations to schemas. The checks run in a fixed order, and the first failure is reported. -/

namespace EntityGraph

namespace Declarations

/-- The first text that occurs a second time. -/
def firstRepeat? : List String → List String → Option String
  | _, [] => none
  | seen, name :: rest => if seen.contains name then some name else firstRepeat? (name :: seen) rest

/-- Types, enumerations and open types share their names' space. -/
def checkNames (d : Declarations) : Except SchemaError Unit :=
  match firstRepeat? [] (d.types.map (·.name) ++ d.enums.map (·.name) ++ d.opens.map (·.name)) with
  | some name => .error (.duplicateName name)
  | none => .ok ()

/-- The first number that is zero or occurs a second time. -/
def badId? : List UInt32 → List UInt32 → Option UInt32
  | _, [] => none
  | seen, id :: rest => if id == 0 || seen.contains id then some id else badId? (id :: seen) rest

/-- Listed numbers are distinct and not zero. -/
def checkEnum (e : Enumeration) : Except SchemaError Unit :=
  match badId? [] (e.values.map Prod.fst) with
  | some id => .error (.invalidEnumId e.name id)
  | none => .ok ()

/-- Members are declared types. -/
def checkMembers (d : Declarations) (o : OpenType) : Except SchemaError Unit :=
  match o.members.find? fun m => (d.type? m).isNone with
  | some m => .error (.unknownType m)
  | none => .ok ()

/-- A kind names declared things only. -/
def checkKind (d : Declarations) : Kind → Except SchemaError Unit
  | .enum name => if d.enums.any (·.name == name) then .ok () else .error (.unknownEnum name)
  | .record name => if (d.type? name).isSome then .ok () else .error (.unknownType name)
  | .openType name => if (d.open? name).isSome then .ok () else .error (.unknownOpenType name)
  | .list k | .map k => checkKind d k
  | _ => .ok ()

/-- Fields have their own names and numbers, and known kinds. -/
def checkFields (d : Declarations) (type : String) : List FieldDecl → List FieldDecl → Except SchemaError Unit
  | _, [] => .ok ()
  | earlier, f :: rest =>
    if earlier.any (·.name == f.name) then .error (.duplicateField type f.name)
    else if earlier.any (·.compatId == f.compatId) then .error (.duplicateCompatId type f.compatId)
    else do
      checkKind d f.kind
      checkFields d type (f :: earlier) rest

/-- Derivations read fields of their own type, and only contextual ones have triggers. -/
def checkDerivation (t : TypeDecl) (f : FieldDecl) : Except SchemaError Unit :=
  match f.inputs.find? fun name => (t.indexOf? name).isNone with
  | some name => .error (.unknownField t.name name)
  | none => if !f.triggers.isEmpty && !f.isContextual then .error (.notContextual t.name f.name) else .ok ()

/-- The order of a type's pure derivations. -/
def deriveOrder (t : TypeDecl) : Except SchemaError (List Nat) :=
  match DeriveOrder.run t.fields with
  | .ok order => .ok order
  | .error cycle => .error (.derivationCycle t.name (cycle.filterMap fun i => t.fields[i]?.map (·.name)))

/-- All checks of one type, and the order of its derivations. -/
def checkType (d : Declarations) (t : TypeDecl) : Except SchemaError (List Nat) := do
  checkFields d t.name [] t.fields
  t.fields.forM (checkDerivation t)
  deriveOrder t

/-- Positions with the test, in order. -/
def positions (fields : List FieldDecl) (test : FieldDecl → Bool) : List Nat :=
  (List.range fields.length).filter fun i => fields[i]?.any test

/-- Positions of the fields on the wire, by compat id. -/
def wireOrder (fields : List FieldDecl) : List Nat :=
  let id := fun i => (fields[i]?.map (·.compatId)).getD 0
  Ordered.ofList (fun i j => id i < id j) (positions fields FieldDecl.onWire)

/-- The layout of a checked type. -/
def layout (d : Declarations) (serial : Nat) (rules : List (String × Rule)) (t : TypeDecl) (order : List Nat) :
    Layout where
  serial := serial
  name := t.name
  action := t.action
  fields := t.fields.map fun f => ⟨f, References.reachesDangerous d f, References.mayLink d f⟩
  wireOrder := wireOrder t.fields
  deriveOrder := order
  contextual := positions t.fields FieldDecl.isContextual
  rules := (rules.filter fun r => r.1 == t.name).map Prod.snd
  identifiable := t.identifiable
  dangerousCapable := References.dangerousCapable d t.name
  containsIdentifiable := References.containsIdentifiable d t.name

end Declarations

/-- Checks and analyses a declaration. The serial number tells the result from other compiled schemas. -/
def Schema.compile (serial : Nat) (d : Declarations) : Except SchemaError Schema := do
  d.checkNames
  d.enums.forM Declarations.checkEnum
  d.opens.forM d.checkMembers
  let orders ← d.types.mapM d.checkType
  let rules ← Rules.compile d
  return ⟨serial, List.zipWith (d.layout serial rules) d.types orders, d.enums, d.opens⟩

end EntityGraph
