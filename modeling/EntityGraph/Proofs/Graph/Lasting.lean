import EntityGraph.Proofs.Graph.Unfolding
import EntityGraph.Proofs.Wire.Receive

/-! Properties of single nodes that last: while nodes are linked, held, evicted, and built. -/

namespace EntityGraph

variable {id : NodeId}

namespace Graph

/-- All live nodes have a property. -/
def Nodes (holds : Node → Prop) (g : Graph) : Prop :=
  ∀ id n, g.node? id = some n → holds n

/-- Only the node that is changed has to be looked at. -/
theorem Nodes.update {holds : Node → Prop} {g : Graph} (nodes : Nodes holds g) {f : Node → Node}
    (keeps : ∀ n, g.node? id = some n → holds n → holds (f n)) : Nodes holds (g.update id f) := by
  intro j n live
  rw [node?_update] at live
  split at live
  · obtain ⟨m, there, rfl⟩ := Option.map_eq_some_iff.mp live
    exact keeps m there (nodes id m there)
  · exact nodes j n live

end Graph

/-- A property that does not look at who links to a node or holds it, and that nodes keep when their snapshots are
evicted. -/
structure Loose (holds : Node → Prop) : Prop where
  parents : ∀ n parents, holds n → holds { n with parents := parents }
  held : ∀ n count, holds n → holds { n with holds := count }
  evict : ∀ n, holds n → holds n.evict

/-- A property that nodes also keep when they are built from nodes that have it. -/
structure Lasting (F : Formulas) (holds : Node → Prop) : Prop extends Loose holds where
  take : ∀ n, holds n → holds { n with previous := none }
  snapshot : ∀ n (records : NodeId → Record), holds n →
    (∀ c ∈ n.links, ∃ m, holds m ∧ records c = m.cached.getD (Graph.standIn F m)) →
    holds { n with cached := some (Stored.expandRecord F records n.content) }

/-- It is kept where tables and holds differ only. -/
theorem Loose.of_lone {holds : Node → Prop} (loose : Loose holds) {n n' : Node} (same : n'.lone = n.lone)
    (held : holds n) : holds n' := by
  have equal : n' = { n with parents := n'.parents } := by
    rcases n with ⟨layout, key, root, fields, parents, count, cached, previous⟩
    rcases n' with ⟨layout', key', root', fields', parents', count', cached', previous'⟩
    simp only [Node.lone, Node.mk.injEq] at same ⊢
    simp [same]
  rw [equal]
  exact loose.parents n _ held

namespace Graph

variable {F : Formulas} {holds : Node → Prop} {g : Graph}

/-- A change evicts snapshots, which keeps the property. -/
theorem Nodes.touch (nodes : Nodes holds g) (loose : Loose holds) (id : NodeId) : Nodes holds (g.touch id) := by
  intro j n live
  rw [Graph.touch, node?_noteChanges] at live
  split at live
  · obtain ⟨m, there, rfl⟩ := Option.map_eq_some_iff.mp live
    exact loose.evict m (nodes j m there)
  · exact nodes j n live

/-- A sweep leaves nodes as they are, up to tables. -/
theorem Nodes.swept {g' : Graph} (nodes : Nodes holds g) (loose : Loose holds) (swept : Swept g g') :
    Nodes holds g' := by
  intro j n live
  have kept := ((swept.contains_iff j).mp (contains_iff.mpr ⟨n, live⟩)).2
  have lone := swept.kept j kept
  rw [live, Option.map_some, eq_comm, Option.map_eq_some_iff] at lone
  obtain ⟨m, there, same⟩ := lone
  exact loose.of_lone same.symm (nodes j m there)

/-- Giving out an evicted snapshot keeps the property. -/
theorem Nodes.takePrevious (nodes : Nodes holds g) (lasting : Lasting F holds) (id : NodeId) :
    Nodes holds (g.takePrevious id).2 :=
  nodes.update fun n _ held => lasting.take n held

/-- A node that is built has a property that lasts. -/
theorem Nodes.keep (nodes : Nodes holds g) (lasting : Lasting F holds) (sound : Sound g) {r : Record}
    (made : g.recordOf F id = .ok r) : Nodes holds (g.update id fun n => { n with cached := some r }) := by
  refine nodes.update fun n live held => ?_
  -- Every link leads to a live node, whose snapshot or stand-in goes into the record.
  have known : ∀ c ∈ n.links, ∃ m, g.node? c = some m ∧
      target F g c = .ok (m.cached.getD (standIn F m)) := by
    intro c link
    obtain ⟨m, there⟩ := contains_iff.mp (sound.closed id c (by rwa [outgoing_of_live live]))
    exact ⟨m, there, by simp [target, node, there]⟩
  have records : ∀ c ∈ n.links, target F g c =
      .ok (((g.node? c).map fun m => m.cached.getD (standIn F m)).getD r) := by
    intro c link
    obtain ⟨m, there, reads⟩ := known c link
    rw [reads, there]
    rfl
  rw [recordOf_eq_expand F live records, Except.ok.injEq] at made
  rw [← made]
  refine lasting.snapshot n _ held fun c link => ?_
  obtain ⟨m, there, -⟩ := known c link
  exact ⟨m, nodes c m there, by rw [there]; rfl⟩

end Graph

/-- The node has a field for each position, and a snapshot of its own type. -/
structure Node.Shaped (n : Node) : Prop where
  length : n.fields.length = n.layout.fields.length
  cached : ∀ r, n.cached = some r → r.layout = n.layout

theorem Node.Shaped.loose : Loose Node.Shaped where
  parents _ _ shaped := ⟨shaped.length, shaped.cached⟩
  held _ _ shaped := ⟨shaped.length, shaped.cached⟩
  evict _ shaped := ⟨shaped.length, by simp [Node.evict]⟩

/-- Snapshots have the layout of their node, whatever is built. -/
theorem Node.Shaped.lasting (F : Formulas) : Lasting F Node.Shaped where
  toLoose := Node.Shaped.loose
  take _ shaped := ⟨shaped.length, shaped.cached⟩
  snapshot n records shaped _ := ⟨shaped.length, fun r same => by
    cases same
    rw [Node.content, Stored.expandRecord]
    exact (RecordOf.differs_foldl_deriveAt F _ _).layout⟩

end EntityGraph
