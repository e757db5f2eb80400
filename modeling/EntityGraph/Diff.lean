import EntityGraph.Identity

/-! The changes of entities, folded so that each entity has one. -/

namespace EntityGraph

/-- The step of one entity from one snapshot to the next. -/
structure Change where
  /-- The snapshot before; none for an entity that is new. -/
  was : Option Record
  is : Record

/-- Changes with the keys of their entities, in the order of their first appearance. -/
structure Diff where
  changes : List (Key × Change)

namespace Diff

/-- No changes. -/
def empty : Diff := ⟨[]⟩

/-- Gives an entity that has a change its newest snapshot; the oldest one stays. -/
def update (key : Key) (is : Record) (entry : Key × Change) : Key × Change :=
  if entry.1 = key then (entry.1, ⟨entry.2.was, is⟩) else entry

/-- Records a change. -/
def push (d : Diff) (change : Change) : Diff :=
  let key := change.is.key
  if d.changes.any fun e => e.1 == key then ⟨d.changes.map (update key change.is)⟩
  else ⟨d.changes ++ [(key, change)]⟩

/-- The changes in order. -/
def toList (d : Diff) : List Change :=
  d.changes.map Prod.snd

/-- Folds the changes of another diff into this one. -/
def merge (d other : Diff) : Diff :=
  other.toList.foldl push d

/-- The change of the entity that a record identifies. -/
def find? (d : Diff) (r : Record) : Option Change :=
  d.changes.lookup r.key

end Diff

end EntityGraph
