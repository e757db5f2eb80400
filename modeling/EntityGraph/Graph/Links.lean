import EntityGraph.Graph.Basic

/-! Links, holds, and the removal of nodes that nothing refers to. -/

namespace EntityGraph.Graph

/-- Counts a link. -/
def link (parent : NodeId) (g : Graph) (child : NodeId) : Graph :=
  g.update child fun n => n.addParent parent

/-- Counts a link less. A node that nothing else links to may have to go. -/
def unlink (parent : NodeId) (g : Graph) (child : NodeId) : Graph :=
  match g.node? child with
  | none => g
  | some n =>
    let n := n.dropParent parent
    let g := g.update child fun _ => n
    if n.isUnreferenced child then { g with orphans := child :: g.orphans } else g

/-- Nothing holds the node, and nothing else links to it. -/
def isGarbage (g : Graph) (id : NodeId) : Bool :=
  match g.node? id with
  | some n => n.holds == 0 && n.isUnreferenced id
  | none => false

/-- Removes a node and the links that it holds. -/
def collect (g : Graph) (id : NodeId) : Graph :=
  match g.node? id with
  | none => g
  | some n => (n.links.filter (· != id)).foldl (unlink id) (g.remove id n)

/-- Removes the garbage among the orphans, and what becomes garbage by that. -/
def sweepUpTo : Nat → Graph → Graph
  | 0, g => { g with orphans := [] }
  | fuel + 1, g =>
    match g.orphans.dropWhile fun id => !g.isGarbage id with
    | [] => { g with orphans := [] }
    | id :: rest => sweepUpTo fuel (collect { g with orphans := rest } id)

/-- Removes all garbage that the orphans lead to: no more than all live nodes. -/
def sweep (g : Graph) : Graph :=
  sweepUpTo g.liveCount g

/-- Holds a node, which keeps it alive. -/
def retain (g : Graph) (id : NodeId) : Except GraphError Graph := do
  let _ ← g.node id
  return g.update id fun n => { n with holds := n.holds + 1 }

/-- Drops a hold. The node goes when no holds and no links remain. -/
def release (g : Graph) (id : NodeId) : Except GraphError Graph := do
  let _ ← g.node id
  let g := g.update id fun n => { n with holds := n.holds - 1 }
  return sweep { g with orphans := id :: g.orphans }

/-- The nodes that link to a node. -/
def parents (g : Graph) (id : NodeId) : List NodeId :=
  ((g.node? id).map fun n => n.parents.map Prod.fst).getD []

/-- A node, and everything that leads to it through links. -/
def ancestors (g : Graph) (id : NodeId) : List NodeId :=
  (Reach.visit g.parents (g.slots.length + 1) id []).filter g.contains

/-- Marks one node as changed. -/
def noteChange (g : Graph) (id : NodeId) : Graph :=
  let g := g.update id Node.evict
  { g with changed := Ordered.insert NodeId.lt id g.changed }

/-- Marks a node and its ancestors as changed, and drops their snapshots. -/
def touch (g : Graph) (id : NodeId) : Graph :=
  (g.ancestors id).foldl noteChange g

/-- Marks a live node and its ancestors as changed. -/
def invalidate (g : Graph) (id : NodeId) : Except GraphError Graph := do
  let _ ← g.node id
  return g.touch id

/-- Replaces a field, unless it is alike. -/
def setField (g : Graph) (id : NodeId) (i : Nat) (incoming : Field Stored) : Except GraphError Graph := do
  let n ← g.node id
  match n.fields[i]? with
  | none => return g
  | some current =>
    if Stored.sameField current incoming then return g
    else
      let g := (Stored.fieldLinks [current]).foldl (unlink id) g
      let g := g.update id fun n => { n with fields := n.fields.set i incoming }
      let g := (Stored.fieldLinks [incoming]).foldl (link id) g
      return g.touch id

end EntityGraph.Graph
