import EntityGraph.Schema.Declaration
import EntityGraph.Reach

/-! Which record types a type can hold, directly and at any depth. -/

namespace EntityGraph.References

/-- The record types that a value of this kind can be, through lists, maps and open types. -/
def ofKind (d : Declarations) : Kind → List String
  | .record name => [name]
  | .openType name => ((d.open? name).map OpenType.members).getD []
  | .list k | .map k => ofKind d k
  | _ => []

/-- The record types that the fields of a type can hold. -/
def ofType (d : Declarations) (name : String) : List String :=
  match d.type? name with
  | none => []
  | some t => t.fields.flatMap fun f => ofKind d f.kind

/-- Everything reachable from the given types, themselves included. -/
def reachable (d : Declarations) (names : List String) : List String :=
  Reach.closure (ofType d) (d.types.length + 1) names

/-- A reachable type satisfies the test. -/
def anyReachable (d : Declarations) (names : List String) (test : TypeDecl → Bool) : Bool :=
  (reachable d names).any fun name => (d.type? name).any test

/-- Records of the type can hold dangerous data, in themselves or deeper. -/
def dangerousCapable (d : Declarations) (name : String) : Bool :=
  anyReachable d [name] TypeDecl.hasDangerous

/-- Records of the type can hold identifiable records. -/
def containsIdentifiable (d : Declarations) (name : String) : Bool :=
  anyReachable d (ofType d name) TypeDecl.identifiable

/-- A field is dangerous or can hold a record with dangerous data. -/
def reachesDangerous (d : Declarations) (f : FieldDecl) : Bool :=
  f.dangerous || (ofKind d f.kind).any (dangerousCapable d)

/-- A field can hold an identifiable record at some depth. -/
def mayLink (d : Declarations) (f : FieldDecl) : Bool :=
  (ofKind d f.kind).any fun name =>
    (d.type? name).any TypeDecl.identifiable || containsIdentifiable d name

end EntityGraph.References
