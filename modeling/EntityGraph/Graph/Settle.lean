import EntityGraph.Graph.Build
import EntityGraph.Reaction

/-! Settling: changed nodes are built again and contextual fields derived, round by round, until nothing changes. -/

namespace EntityGraph.Graph

/-- A node that changed, with its snapshots before and after. -/
structure Changed where
  id : NodeId
  change : Change

/-- A contextual field of a node to derive. -/
structure Task where
  id : NodeId
  field : Nat
deriving DecidableEq

/-- Tasks are ordered by node, then by position of the field. -/
def Task.lt (a b : Task) : Bool :=
  NodeId.lt a.id b.id || (a.id == b.id && a.field < b.field)

/-- Builds the nodes that are still live and keeps those that differ in state from their last snapshot. -/
def rebuild (formulas : Formulas) : List NodeId → Step (List Changed)
  | [] => return []
  | id :: rest => do
    if (← get).contains id then do
      let was ← modifyGet fun g => g.takePrevious id
      let is ← build formulas id
      let others ← rebuild formulas rest
      if was.any fun w => w.equals .state is then return others
      else return ⟨id, ⟨was, is⟩⟩ :: others
    else rebuild formulas rest

/-- The fields that a reaction to a changed node asks for. -/
def reactionTasks (g : Graph) (c : Changed) : Reaction → List Task
  | .own type field =>
    if type == c.change.is.typeName then
      (c.change.is.layout.indexOf? field).toList.map fun i => ⟨c.id, i⟩
    else []
  | .broadcast type field =>
    match (g.schema.type? type).bind fun layout => layout.indexOf? field with
    | some i => (g.live type).map fun id => ⟨id, i⟩
    | none => []

/-- The contextual fields of a node that were never derived. -/
def missingTasks (id : NodeId) (n : Node) : List Task :=
  (n.layout.contextual.filter fun i => (n.fields[i]?.getD .null).isAbsent).map fun i => ⟨id, i⟩

/-- What a changed node asks for: the reactions to its change, and its contextual fields that were never derived. -/
def tasksOf (g : Graph) (diff : Diff) (c : Changed) : Except GraphError (List Task) := do
  let n ← g.node c.id
  return (reactions c.change.was c.change.is diff).flatMap (reactionTasks g c) ++ missingTasks c.id n

/-- What all changed nodes ask for, each field once, in order. -/
def tasks (g : Graph) (diff : Diff) (changed : List Changed) : Except GraphError (List Task) := do
  let ts ← changed.mapM (tasksOf g diff)
  return Ordered.ofList Task.lt ts.flatten

/-- The current record of the entity that a record identifies. -/
def find (formulas : Formulas) (g : Graph) (r : Record) : Option Record := do
  let id ← g.lookup r
  current? formulas g id

/-- The current records of all live nodes of a type. -/
def allOf (formulas : Formulas) (g : Graph) (typeName : String) : List Record :=
  (g.live typeName).filterMap (current? formulas g)

/-- Derives fields, all from the graph as it is. -/
def deriveTasks (formulas : Formulas) (diff : Diff) : List Task → Step (List (Task × Field Value))
  | [] => return []
  | t :: rest => do
    let current ← build formulas t.id
    let g ← get
    let derived := Context.derive? formulas current t.field diff (find formulas g) (allOf formulas g)
    let others ← deriveTasks formulas diff rest
    return match derived with
      | some f => (t, f) :: others
      | none => others

/-- Stores derived fields in their nodes. -/
def storeResults : List (Task × Field Value) → Step Unit
  | [] => return ()
  | (t, f) :: rest => do
    let root ← Step.ask fun g => g.root t.id
    let stored ← storeField f root 0
    Step.change fun g => g.setField t.id t.field stored
    storeResults rest

/-- One round: changed nodes are built, and what reacts to them is derived and stored. -/
def round (formulas : Formulas) : Step Diff := do
  let ids ← modifyGet fun g => (g.changed, { g with changed := [] })
  let changed ← rebuild formulas ids
  let diff := (changed.map Changed.change).foldl Diff.push Diff.empty
  let ts ← Step.ask fun g => g.tasks diff changed
  let results ← deriveTasks formulas diff ts
  storeResults results
  modify sweep
  return diff

/-- Rounds until nothing changes, as long as some are left. -/
def rounds (formulas : Formulas) : Nat → Diff → Step Diff
  | left, total => do
    let g ← get
    if g.changed.isEmpty then return total
    else
      match left with
      | 0 => throw (.unsettled g.maxRounds)
      | left + 1 => do
        let diff ← round formulas
        rounds formulas left (total.merge diff)

/-- Builds what changed and runs reactions until the graph is at rest. The result has one change for each entity,
from its oldest snapshot to its newest. -/
def settle (formulas : Formulas) : Step Diff := do
  let g ← get
  rounds formulas g.maxRounds Diff.empty

end EntityGraph.Graph
