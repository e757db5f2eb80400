import EntityGraph.Diff
import EntityGraph.Record.Equality

/-! Which contextual fields a change asks to derive again. -/

namespace EntityGraph

namespace RecordOf

/-- The field at the end of a path through records, if it is declared. -/
def at? : Record → Path → Option (Field Value)
  | _, [] => none
  | r, [last] => let f := r.field last; if f.isDeclared then some f else none
  | r, step :: rest =>
    match r.field step with
    | .value (.record next) => at? next rest
    | _ => none

end RecordOf

namespace Reaction

/-- The path is declared now and was missing or different before. -/
def pathChanged (was : Option Record) (is : Record) (path : Path) : Bool :=
  match is.at? path with
  | none => false
  | some now =>
    match was.bind fun w => w.at? path with
    | none => true
    | some before => !before.equals .state now

/-- A record that the collection held before changed at the path; a collection that is new counts too. -/
def elementChanged (was : Option Record) (is : Record) (collection path : Path) (diff : Diff) : Bool :=
  match is.at? collection with
  | none => false
  | some _ =>
    match was.bind fun w => w.at? collection with
    | none => true
    | some before =>
      ((before.value?.map Value.elements).getD []).any fun element =>
        match element with
        | .record r =>
          match diff.find? r with
          | some change => pathChanged change.was change.is path
          | none => false
        | _ => false

/-- The condition holds of the step from one snapshot to the next. -/
def fires (was : Option Record) (is : Record) (diff : Diff) : Condition → Bool
  | .changed path => pathChanged was is path
  | .unchanged path => (is.at? path).isSome && !pathChanged was is path
  | .elementChanged collection path => elementChanged was is collection path diff

end Reaction

/-- The reactions to a step, one for each rule that fires, in the order of the rules. -/
def reactions (was : Option Record) (is : Record) (diff : Diff) : List Reaction :=
  (is.layout.rules.filter fun rule => Reaction.fires was is diff rule.condition).map Rule.reaction

end EntityGraph
