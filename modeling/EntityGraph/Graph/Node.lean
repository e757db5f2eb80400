import EntityGraph.Identity
import EntityGraph.Record.Equality

/-! Nodes of a graph: entities whose records refer to each other by handle. -/

namespace EntityGraph

/-- A handle of a node. The generation tells apart the nodes that use one slot after the other. -/
structure NodeId where
  index : Nat
  generation : UInt32
deriving DecidableEq

namespace NodeId

/-- Handles are ordered by slot, then by generation. -/
def lt (a b : NodeId) : Bool :=
  a.index < b.index || (a.index == b.index && a.generation < b.generation)

/-- The handle in error messages. -/
def display (id : NodeId) : String :=
  s!"NodeId \x7b index: {id.index}, generation: {id.generation} \x7d"

end NodeId

/-- A value with the identifiable records in it replaced by links. -/
inductive Stored where
  /-- A value without links. -/
  | plain (v : Value)
  | link (id : NodeId)
  | list (items : List (Option Stored))
  | map (entries : List (String × Option Stored))
  /-- A record that is part of its owner and may hold links. -/
  | inline (r : RecordOf Stored)

namespace Stored

mutual

/-- The links in a value, with multiplicity. -/
def links : Stored → List NodeId
  | .plain _ => []
  | .link id => [id]
  | .list items => itemLinks items
  | .map entries => entryLinks entries
  | .inline r => recordLinks r

/-- The links in the elements of a list. -/
def itemLinks : List (Option Stored) → List NodeId
  | [] => []
  | some s :: rest => s.links ++ itemLinks rest
  | none :: rest => itemLinks rest

/-- The links in the entries of a map. -/
def entryLinks : List (String × Option Stored) → List NodeId
  | [] => []
  | (_, some s) :: rest => s.links ++ entryLinks rest
  | (_, none) :: rest => entryLinks rest

/-- The links in a record. -/
def recordLinks : RecordOf Stored → List NodeId
  | ⟨_, fields⟩ => fieldLinks fields

/-- The links in fields. -/
def fieldLinks : List (Field Stored) → List NodeId
  | [] => []
  | .value s :: rest => s.links ++ fieldLinks rest
  | .null :: rest => fieldLinks rest
  | .absent :: rest => fieldLinks rest

end

mutual

/-- Two values are alike: plain parts in state, links by handle. -/
def same : Stored → Stored → Bool
  | .plain a, .plain b => a.equals .state b
  | .link a, .link b => a == b
  | .list as, .list bs => sameItems as bs
  | .map as, .map bs => sameEntries as bs
  | .inline a, .inline b => sameRecord a b
  | _, _ => false
termination_by structural s => s

/-- Two lists are alike position by position. -/
def sameItems : List (Option Stored) → List (Option Stored) → Bool
  | [], [] => true
  | some a :: as, some b :: bs => a.same b && sameItems as bs
  | none :: as, none :: bs => sameItems as bs
  | _, _ => false
termination_by structural as => as

/-- Two maps have the same keys and alike values. -/
def sameEntries : List (String × Option Stored) → List (String × Option Stored) → Bool
  | [], [] => true
  | (k, some a) :: as, (l, some b) :: bs => k == l && a.same b && sameEntries as bs
  | (k, none) :: as, (l, none) :: bs => k == l && sameEntries as bs
  | _, _ => false
termination_by structural as => as

/-- Two records are of one type name and alike field by field. -/
def sameRecord : RecordOf Stored → RecordOf Stored → Bool
  | ⟨layout, fields⟩, other => layout.name == other.layout.name && sameFields fields other.fields
termination_by structural r => r

/-- Two lists of fields agree in presence and are alike. -/
def sameFields : List (Field Stored) → List (Field Stored) → Bool
  | [], [] => true
  | .value a :: as, .value b :: bs => a.same b && sameFields as bs
  | .null :: as, .null :: bs => sameFields as bs
  | .absent :: as, .absent :: bs => sameFields as bs
  | _, _ => false
termination_by structural as => as

end

/-- Two fields agree in presence and are alike. -/
def sameField (a b : Field Stored) : Bool :=
  sameFields [a] [b]

/-- A field without links. -/
def plainField : Field Value → Field Stored
  | .absent => .absent
  | .null => .null
  | .value v => .value (.plain v)

end Stored

/-- One entity: its fields, who links to it, who holds it, and the snapshots taken of it. -/
structure Node where
  layout : Layout
  key : Key
  /-- The nearest identifiable ancestor when the node was made, or the node itself. -/
  root : NodeId
  fields : List (Field Stored)
  /-- Incoming links, counted for each node that they come from. -/
  parents : List (NodeId × Nat)
  /-- How often the node is held from outside. -/
  holds : Nat
  /-- The snapshot, if nothing changed since it was taken. -/
  cached : Option Record
  /-- The oldest snapshot that a change evicted and nobody asked for yet. -/
  previous : Option Record

namespace Node

/-- A node without fields. -/
def new (layout : Layout) (key : Key) (root : NodeId) : Node where
  layout := layout
  key := key
  root := root
  fields := List.replicate layout.fields.length .absent
  parents := []
  holds := 0
  cached := none
  previous := none

/-- The links of a node, with multiplicity. -/
def links (n : Node) : List NodeId :=
  Stored.fieldLinks n.fields

/-- How many links point at the node. -/
def linkCount (n : Node) : Nat :=
  n.parents.foldr (fun p total => p.2 + total) 0

/-- No node but the one of the given handle, the node's own, links to it. -/
def isUnreferenced (n : Node) (own : NodeId) : Bool :=
  n.parents.all fun p => p.1 == own

/-- Drops the snapshot. The oldest one that was dropped is kept. -/
def evict (n : Node) : Node :=
  { n with cached := none, previous := n.previous <|> n.cached }

/-- Counts one more link from a node. -/
def addParent (n : Node) (parent : NodeId) : Node :=
  { n with
    parents := match n.parents.lookup parent with
      | some _ => n.parents.map fun p => if p.1 = parent then (p.1, p.2 + 1) else p
      | none => n.parents ++ [(parent, 1)] }

/-- Counts one link less from a node; a node without links leaves the table. -/
def dropParent (n : Node) (parent : NodeId) : Node :=
  { n with
    parents := (n.parents.map fun p => if p.1 = parent then (p.1, p.2 - 1) else p).filter fun p => p.2 != 0 }

end Node

end EntityGraph
