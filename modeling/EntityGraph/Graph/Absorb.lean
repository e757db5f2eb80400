import EntityGraph.Graph.Links
import EntityGraph.Limits

/-! Merging records into a graph: one node for each identifiable record, at any depth. -/

namespace EntityGraph.Graph

/-- An operation that changes a graph. What it changed stays if it fails. -/
abbrev Step := EStateM GraphError Graph

/-- Fails, or replaces the graph. -/
def Step.change (f : Graph → Except GraphError Graph) : Step Unit := fun g =>
  match f g with
  | .ok g => .ok () g
  | .error e => .error e g

/-- Asks the graph. -/
def Step.ask {α : Type} (f : Graph → Except GraphError α) : Step α := fun g =>
  match f g with
  | .ok a => .ok a g
  | .error e => .error e g

/-- Refuses what is nested too deep. -/
def checkDepth (depth : Nat) : Step Unit :=
  if Limits.depth < depth then throw (.tooDeep Limits.depth) else return ()

/-- The layout of a type of the graph's own schema. -/
def layout (g : Graph) (name : String) : Except GraphError Layout :=
  match g.schema.type? name with
  | some layout => .ok layout
  | none => .error (.unknownType name)

/-- The node of a key, made if there is none. -/
def ensure (layout : Layout) (key : Key) (parentRoot : Option NodeId) : Step NodeId := fun g =>
  match g.find? key with
  | some id => .ok id g
  | none =>
    let (id, g) := g.create layout key parentRoot
    .ok id (touch { g with created := id :: g.created } id)

mutual

/-- Turns a value into its stored form, absorbing the identifiable records in it. -/
def store : Value → NodeId → Nat → Step Stored
  | .record r, root, depth => do
    checkDepth depth
    if r.layout.identifiable then Stored.link <$> absorbAt r (some root) (depth + 1)
    else if r.layout.containsIdentifiable then Stored.inline <$> storeInline r root (depth + 1)
    else return .plain (.record r)
  | .list items, root, depth => do
    checkDepth depth
    let stored ← storeItems items root (depth + 1)
    return .list stored
  | .map entries, root, depth => do
    checkDepth depth
    let stored ← storeEntries entries root (depth + 1)
    return .map stored
  | v, _, depth => do
    checkDepth depth
    return .plain v

/-- Stores the elements of a list. -/
def storeItems : List (Option Value) → NodeId → Nat → Step (List (Option Stored))
  | [], _, _ => return []
  | some v :: rest, root, depth => do
    let s ← store v root depth
    let stored ← storeItems rest root depth
    return some s :: stored
  | none :: rest, root, depth => do
    let stored ← storeItems rest root depth
    return none :: stored

/-- Stores the entries of a map. -/
def storeEntries : List (String × Option Value) → NodeId → Nat → Step (List (String × Option Stored))
  | [], _, _ => return []
  | (k, some v) :: rest, root, depth => do
    let s ← store v root depth
    let stored ← storeEntries rest root depth
    return (k, some s) :: stored
  | (k, none) :: rest, root, depth => do
    let stored ← storeEntries rest root depth
    return (k, none) :: stored

/-- Stores a record that is not identifiable as a part of its owner. -/
def storeInline : RecordOf Value → NodeId → Nat → Step (RecordOf Stored)
  | ⟨layout, fields⟩, root, depth => do
    let stored ← storeFields fields layout.fields root depth
    return ⟨layout, stored⟩

/-- Stores fields. Pure derivations are left out: they are run again when a snapshot is taken. -/
def storeFields : List (Field Value) → List FieldInfo → NodeId → Nat → Step (List (Field Stored))
  | .value v :: fields, info :: infos, root, depth =>
    if info.isPure then do
      let stored ← storeFields fields infos root depth
      return .absent :: stored
    else do
      let s ← store v root depth
      let stored ← storeFields fields infos root depth
      return .value s :: stored
  | .null :: fields, info :: infos, root, depth => do
    let stored ← storeFields fields infos root depth
    return (if info.isPure then .absent else .null) :: stored
  | .absent :: fields, _ :: infos, root, depth => do
    let stored ← storeFields fields infos root depth
    return .absent :: stored
  | _, _, _, _ => return []

/-- Merges a record at the given depth into its node. -/
def absorbAt : RecordOf Value → Option NodeId → Nat → Step NodeId
  | ⟨own, fields⟩, parentRoot, depth => do
    checkDepth depth
    let layout ← Step.ask fun g => g.layout own.name
    let id ← ensure layout (RecordOf.key ⟨own, fields⟩) parentRoot
    let root ← Step.ask fun g => g.root id
    absorbFields fields layout.fields id root depth 0
    return id

/-- Merges the declared fields from the given position on. They meet the fields of the node by position, and pure
derivations are left out. -/
def absorbFields : List (Field Value) → List FieldInfo → NodeId → NodeId → Nat → Nat → Step Unit
  | .value v :: fields, info :: infos, id, root, depth, i => do
    if info.isPure then absorbFields fields infos id root depth (i + 1)
    else do
      let s ← if info.mayLink then store v root depth else pure (.plain v)
      Step.change fun g => g.setField id i (.value s)
      absorbFields fields infos id root depth (i + 1)
  | .null :: fields, info :: infos, id, root, depth, i => do
    if info.isPure then absorbFields fields infos id root depth (i + 1)
    else do
      Step.change fun g => g.setField id i .null
      absorbFields fields infos id root depth (i + 1)
  | .absent :: fields, _ :: infos, id, root, depth, i => absorbFields fields infos id root depth (i + 1)
  | _, _, _, _, _, _ => return ()

end

/-- Stores a field. -/
def storeField (f : Field Value) (root : NodeId) (depth : Nat) : Step (Field Stored) :=
  match f with
  | .absent => return .absent
  | .null => return .null
  | .value v => Field.value <$> store v root depth

/-- Merges a record and everything identifiable in it, and gives its node. If that fails, the nodes that were made are
removed unless something links to them. -/
def absorb (r : Record) (parentRoot : Option NodeId) : Step NodeId := fun g =>
  match absorbAt r parentRoot 0 g with
  | .ok id g => .ok id (sweep { g with created := [] })
  | .error e g => .error e (sweep { g with created := [], orphans := g.created ++ g.orphans })

end EntityGraph.Graph
