import EntityGraph.Schema.Basic

/-! Triggers compiled into rules of the types that they observe. -/

namespace EntityGraph.Rules

/-- The kind at the end of a path through record fields. -/
def resolve? (d : Declarations) : TypeDecl → Path → Option Kind
  | _, [] => none
  | t, [last] => (t.field? last).map FieldDecl.kind
  | t, step :: rest =>
    match (t.field? step).map FieldDecl.kind with
    | some (.record next) =>
      match d.type? next with
      | some inner => resolve? d inner rest
      | none => none
    | _ => none

/-- The type of the records that a collection kind holds. -/
def elementType? (d : Declarations) : Kind → Option TypeDecl
  | .list (.record name) | .map (.record name) => d.type? name
  | _ => none

/-- The path that does not resolve from the observed type, if there is one. -/
def badPath? (d : Declarations) (observed : TypeDecl) : Condition → Option Path
  | .changed path | .unchanged path => if (resolve? d observed path).isSome then none else some path
  | .elementChanged collection path =>
    match (resolve? d observed collection).bind (elementType? d) with
    | none => some collection
    | some inner => if (resolve? d inner path).isSome then none else some path

/-- Compiles one trigger into a rule of the observed type. A trigger that names a type reaches every record of
the declaring type, even if it names that type itself. -/
def ofTrigger (d : Declarations) (t : TypeDecl) (f : FieldDecl) (trigger : Trigger) :
    Except SchemaError (String × Rule) :=
  let source := trigger.source.getD t.name
  match d.type? source with
  | none => .error (.unknownType source)
  | some observed =>
    match badPath? d observed trigger.condition with
    | some path => .error (.invalidTriggerPath t.name f.name path)
    | none =>
      let reaction := if trigger.source.isSome then Reaction.broadcast t.name f.name
        else Reaction.own t.name f.name
      .ok (source, ⟨trigger.condition, reaction⟩)

/-- All rules with the types they observe, in the order of types, fields and triggers. -/
def compile (d : Declarations) : Except SchemaError (List (String × Rule)) := do
  let rules ← d.types.mapM fun t => t.fields.mapM fun f => f.triggers.mapM (ofTrigger d t f)
  return rules.flatten.flatten

end EntityGraph.Rules
