import EntityGraph.Formula
import EntityGraph.Graph.Absorb

/-! Snapshots of nodes: records in which every link is replaced by the snapshot of its target. -/

namespace EntityGraph.Graph

/-- The identifying fields of a node that need no other node. -/
def ownIdentity : List (Field Stored) → List FieldInfo → List (Field Value)
  | f :: fields, info :: infos =>
    (match info.identifying, f with
      | true, .null => .null
      | true, .value (.plain v) => .value v
      | _, _ => .absent) :: ownIdentity fields infos
  | _, _ => []

/-- What stands for a node on a cycle of links while its snapshot is being taken. -/
def standIn (formulas : Formulas) (n : Node) : Record :=
  RecordOf.derive formulas ⟨n.layout, ownIdentity n.fields n.layout.fields⟩

/-- The snapshot of the target of a link, or what stands for it. -/
def target (formulas : Formulas) (g : Graph) (id : NodeId) : Except GraphError Record := do
  let n ← g.node id
  return n.cached.getD (standIn formulas n)

mutual

/-- The value of a stored one. -/
def resolve (formulas : Formulas) (g : Graph) : Stored → Except GraphError Value
  | .plain v => .ok v
  | .link id => Value.record <$> target formulas g id
  | .list items => Value.list <$> resolveItems formulas g items
  | .map entries => Value.map <$> resolveEntries formulas g entries
  | .inline r => Value.record <$> resolveRecord formulas g r

/-- The elements of a stored list. -/
def resolveItems (formulas : Formulas) (g : Graph) :
    List (Option Stored) → Except GraphError (List (Option Value))
  | [] => .ok []
  | some s :: rest => do
    let v ← resolve formulas g s
    let vs ← resolveItems formulas g rest
    return some v :: vs
  | none :: rest => do
    let vs ← resolveItems formulas g rest
    return none :: vs

/-- The entries of a stored map. -/
def resolveEntries (formulas : Formulas) (g : Graph) :
    List (String × Option Stored) → Except GraphError (List (String × Option Value))
  | [] => .ok []
  | (k, some s) :: rest => do
    let v ← resolve formulas g s
    let vs ← resolveEntries formulas g rest
    return (k, some v) :: vs
  | (k, none) :: rest => do
    let vs ← resolveEntries formulas g rest
    return (k, none) :: vs

/-- The record of a stored one, with every pure derivation run. -/
def resolveRecord (formulas : Formulas) (g : Graph) : RecordOf Stored → Except GraphError (RecordOf Value)
  | ⟨layout, fields⟩ => do
    let values ← resolveFields formulas g fields
    return RecordOf.derive formulas ⟨layout, values⟩

/-- The fields of a stored record. -/
def resolveFields (formulas : Formulas) (g : Graph) :
    List (Field Stored) → Except GraphError (List (Field Value))
  | [] => .ok []
  | .value s :: rest => do
    let v ← resolve formulas g s
    let vs ← resolveFields formulas g rest
    return .value v :: vs
  | .null :: rest => do
    let vs ← resolveFields formulas g rest
    return .null :: vs
  | .absent :: rest => do
    let vs ← resolveFields formulas g rest
    return .absent :: vs

end

/-- A node's record, from its fields and the snapshots of the nodes that it links to. -/
def recordOf (g : Graph) (formulas : Formulas) (id : NodeId) : Except GraphError Record := do
  let n ← g.node id
  resolveRecord formulas g ⟨n.layout, n.fields⟩

/-- A search for nodes without snapshots: what it has seen, and what it found, the latest first. -/
structure Search where
  seen : List NodeId
  found : List NodeId

/-- Visits a node after the nodes it links to, the last link first. A node with a snapshot leads no further. The fuel
bounds the length of a path: one more than the number of slots suffices. -/
def search (g : Graph) : Nat → Search → NodeId → Except GraphError Search
  | 0, s, _ => .ok s
  | fuel + 1, s, id =>
    if id ∈ s.seen then .ok s
    else do
      let n ← g.node id
      if n.cached.isSome then return ⟨id :: s.seen, s.found⟩
      else do
        let s ← n.links.reverse.foldlM (search g fuel) ⟨id :: s.seen, s.found⟩
        return ⟨s.seen, id :: s.found⟩

/-- The nodes without snapshots that a node leads to, each after those it links to as far as links have no cycle. A
node of a type that holds no identifiable records leads nowhere. -/
def unbuilt (g : Graph) (id : NodeId) : Except GraphError (List NodeId) := do
  let n ← g.node id
  if n.layout.containsIdentifiable then do
    let s ← search g (g.slots.length + 1) ⟨[], []⟩ id
    return s.found.reverse
  else return [id]

/-- Takes the snapshots of nodes, one after the other. -/
def takeSnapshots (formulas : Formulas) : List NodeId → Step Unit
  | [] => return ()
  | id :: rest => do
    let r ← Step.ask fun g => g.recordOf formulas id
    modify fun g => g.update id fun n => { n with cached := some r }
    takeSnapshots formulas rest

/-- The snapshot of a node. It is taken, after those it is made from, if it is not there. -/
def build (formulas : Formulas) (id : NodeId) : Step Record := do
  let n ← Step.ask fun g => g.node id
  match n.cached with
  | some r => return r
  | none => do
    let ids ← Step.ask fun g => g.unbuilt id
    takeSnapshots formulas ids
    let n ← Step.ask fun g => g.node id
    match n.cached with
    | some r => return r
    | none => Step.ask fun g => g.recordOf formulas id

/-- The snapshot of a node, or its record as it would be made now. -/
def current? (formulas : Formulas) (g : Graph) (id : NodeId) : Option Record := do
  let n ← g.node? id
  match n.cached with
  | some r => return r
  | none => (g.recordOf formulas id).toOption

end EntityGraph.Graph
