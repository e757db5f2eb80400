import EntityGraph.Graph.Error
import EntityGraph.Reach

/-! Graphs: slots of nodes, with an index by key and the nodes of each type. -/

namespace EntityGraph

/-- A place for a node, and how often it was emptied. -/
structure Slot where
  generation : UInt32
  node : Option Node

/-- Entities by key, with what is pending: nodes that changed, nodes that may have to go, nodes made on the way. -/
structure Graph where
  schema : Schema
  /-- Reactions have to come to rest in this many rounds. -/
  maxRounds : Nat
  slots : List Slot
  /-- The empty slots, the one emptied last first. -/
  free : List Nat
  index : List (Key × NodeId)
  /-- The live nodes of each type, in handle order. -/
  byType : List (String × List NodeId)
  /-- The nodes that changed since the graph last settled, in handle order. -/
  changed : List NodeId
  /-- Nodes that lost a link or a hold, the latest first. -/
  orphans : List NodeId
  /-- Nodes made and not yet accounted for, the latest first. -/
  created : List NodeId

namespace Graph

/-- Rounds of reactions in a graph that says nothing else. -/
def defaultRounds : Nat := 16

/-- A graph without nodes. -/
def empty (schema : Schema) (maxRounds : Nat) : Graph where
  schema := schema
  maxRounds := maxRounds
  slots := []
  free := []
  index := []
  byType := []
  changed := []
  orphans := []
  created := []

/-- The live node of a handle. -/
def node? (g : Graph) (id : NodeId) : Option Node := do
  let slot ← g.slots[id.index]?
  guard (slot.generation = id.generation)
  slot.node

/-- The live node of a handle, which has to be there. -/
def node (g : Graph) (id : NodeId) : Except GraphError Node :=
  match g.node? id with
  | some n => .ok n
  | none => .error (.unknownNode id)

/-- The handle is one of a live node. -/
def contains (g : Graph) (id : NodeId) : Bool :=
  (g.node? id).isSome

/-- How many entities there are. -/
def size (g : Graph) : Nat :=
  g.index.length

/-- The node of a key. -/
def find? (g : Graph) (key : Key) : Option NodeId :=
  g.index.lookup key

/-- The node of the entity that a record identifies. -/
def lookup (g : Graph) (r : Record) : Option NodeId :=
  g.find? r.key

/-- The live nodes of a type, in handle order. -/
def live (g : Graph) (typeName : String) : List NodeId :=
  (Entries.find? typeName g.byType).getD []

/-- The nearest identifiable ancestor of a node, or the node itself. -/
def root (g : Graph) (id : NodeId) : Except GraphError NodeId := do
  let n ← g.node id
  return n.root

/-- The nodes that a node links to, with multiplicity. -/
def links (g : Graph) (id : NodeId) : Except GraphError (List NodeId) := do
  let n ← g.node id
  return n.links

/-- How many links point at a node. -/
def linkCount (g : Graph) (id : NodeId) : Except GraphError Nat := do
  let n ← g.node id
  return n.linkCount

/-- The snapshot of a node, if nothing changed since it was taken. -/
def cached? (g : Graph) (id : NodeId) : Option Record := do
  let n ← g.node? id
  n.cached

/-- How many slots hold a node. -/
def liveCount (g : Graph) : Nat :=
  g.slots.countP fun s => s.node.isSome

/-- Changes a node that is live. -/
def update (g : Graph) (id : NodeId) (f : Node → Node) : Graph :=
  match g.node? id with
  | some n => { g with slots := g.slots.set id.index ⟨id.generation, some (f n)⟩ }
  | none => g

/-- The snapshot that the last change evicted. It is given out once. -/
def takePrevious (g : Graph) (id : NodeId) : Option Record × Graph :=
  ((g.node? id).bind Node.previous, g.update id fun n => { n with previous := none })

/-- An empty slot: the one emptied last, or a new one. -/
def allocate (g : Graph) : NodeId × Graph :=
  match g.free with
  | i :: rest => (⟨i, (g.slots[i]?.map Slot.generation).getD 0⟩, { g with free := rest })
  | [] => (⟨g.slots.length, 0⟩, { g with slots := g.slots ++ [⟨0, none⟩] })

/-- Makes a node. One that is identifiable is its own root. -/
def create (g : Graph) (layout : Layout) (key : Key) (parentRoot : Option NodeId) : NodeId × Graph :=
  let (id, g) := g.allocate
  let root := if layout.identifiable then id else parentRoot.getD id
  (id, { g with
    slots := g.slots.set id.index ⟨id.generation, some (Node.new layout key root)⟩
    index := (key, id) :: g.index
    byType := Entries.insert layout.name (Ordered.insert NodeId.lt id (g.live layout.name)) g.byType })

/-- Empties the slot of a node, whose handle is never valid again. -/
def remove (g : Graph) (id : NodeId) (n : Node) : Graph :=
  { g with
    slots := g.slots.set id.index ⟨id.generation + 1, none⟩
    free := id.index :: g.free
    index := g.index.filter fun e => e.1 != n.key
    byType := Entries.insert n.layout.name ((g.live n.layout.name).filter (· != id)) g.byType
    changed := g.changed.filter (· != id) }

end Graph

end EntityGraph
