import EntityGraph.Proofs.Graph.Lasting
import EntityGraph.Proofs.Graph.Traces

/-! What becomes of a single node while a record is absorbed: it stays, it is made, or one of its fields is written. -/

namespace EntityGraph.Graph

variable {g g' : Graph} {id j : NodeId} {n n' : Node} {act : Act}

/-- A node as an act leaves it, apart from its snapshots and from who links to it. -/
inductive Origin (g : Graph) : Act → NodeId → Node → Prop where
  | kept {act : Act} {j : NodeId} {n : Node} (live : g.node? j = some n)
      (other : ∀ w, act = .write w → g.find? w.key ≠ some j) : Origin g act j n
  | made {r : Record} {layout : Layout} {j root : NodeId} (type : g.schema.type? r.typeName = some layout)
      (fresh : g.find? r.key = none) (dead : g.node? j = none) : Origin g (.meet r) j (Node.new layout r.key root)
  | wrote {w : Write} {j : NodeId} {n : Node} {incoming : Field Stored} (owner : g.find? w.key = some j)
      (live : g.node? j = some n) (image : w.image? g.find? = some incoming) :
      Origin g (.write w) j { n with fields := Stored.put n.fields w.position incoming }

theorem of_node?_touch (live : (g.touch id).node? j = some n) : ∃ m, g.node? j = some m ∧ (n = m ∨ n = m.evict) := by
  rw [touch, node?_noteChanges] at live
  split at live
  · obtain ⟨m, there, rfl⟩ := Option.map_eq_some_iff.mp live
    exact ⟨m, there, Or.inr rfl⟩
  · exact ⟨n, live, Or.inl rfl⟩

/-- Replacing a field of a live node changes that field, and no other node up to evictions and tables of parents. -/
theorem of_node?_setField (live : g.node? id = some n) {i : Nat} {incoming : Field Stored}
    (set : g.setField id i incoming = .ok g') (there : g'.node? j = some n') :
    ∃ m, (j = id ∧ m = { n with fields := Stored.put n.fields i incoming } ∨ j ≠ id ∧ g.node? j = some m) ∧
      (n'.lone = m.lone ∨ n'.lone = m.evict.lone) := by
  rcases of_setField live set with ⟨rfl, alike⟩ | ⟨current, field, differs, rfl⟩
  · -- Where nothing is replaced all nodes are as they were.
    refine ⟨n', ?_, Or.inl rfl⟩
    by_cases here : j = id
    · rw [here, live] at there
      exact Or.inl ⟨here, by rw [Stored.put_of_alike alike]; exact (Option.some.inj there).symm⟩
    · exact Or.inr ⟨here, there⟩
  · obtain ⟨m, before, same⟩ := of_node?_touch there
    have lone := lone_tradeField live i current incoming j
    rw [before, Option.map_some] at lone
    -- Eviction has no part in the fields.
    have evicted : ∀ m' : Node, m.lone = m'.lone → n'.lone = m'.lone ∨ n'.lone = m'.evict.lone := by
      intro m' equal
      rcases same with rfl | rfl
      · exact Or.inl equal
      · exact Or.inr (by simpa [Node.lone, Node.evict] using congrArg Node.evict equal)
    split at lone
    · rename_i same'
      refine ⟨_, Or.inl ⟨same', rfl⟩, evicted _ ?_⟩
      simp only [Stored.put, field, differs]
      exact Option.some.inj lone
    · rename_i other
      rw [eq_comm, Option.map_eq_some_iff] at lone
      obtain ⟨m', there', equal⟩ := lone
      exact ⟨m', Or.inr ⟨other, there'⟩, evicted m' equal.symm⟩

/-- Every node that an act leaves has an origin, which it equals up to an eviction and its table of parents. -/
theorem Does.origin (does : Does g act g') (sound : Sound g) (live : g'.node? j = some n') :
    ∃ n, Origin g act j n ∧ (n'.lone = n.lone ∨ n'.lone = n.evict.lone) := by
  cases does with
  | found => exact ⟨n', .kept live (by simp), Or.inl rfl⟩
  | @made r layout parentRoot id g₁ type fresh made =>
    obtain ⟨m, there, same⟩ := of_node?_touch live
    obtain ⟨dead, nodes⟩ := sound.toArena.node?_create made
    change g₁.node? j = some m at there
    rw [nodes] at there
    refine ⟨m, ?_, same.imp (congrArg Node.lone) (congrArg Node.lone)⟩
    split at there
    · rename_i here
      cases there
      exact .made type fresh (by rw [here]; exact dead)
    · exact .kept there (by simp)
  | @wrote w id incoming g' owner image set =>
    obtain ⟨n, found, -⟩ := sound.toArena.of_find? owner
    obtain ⟨m, before, same⟩ := of_node?_setField found set live
    refine ⟨m, ?_, same⟩
    rcases before with ⟨rfl, rfl⟩ | ⟨other, before⟩
    · exact .wrote owner found image
    · refine .kept before fun w' same' found' => other ?_
      cases same'
      rw [owner] at found'
      exact (Option.some.inj found').symm

/-- New nodes are listed, and stay so; nothing else is listed. -/
theorem Does.created (does : Does g act g') (sound : Sound g) :
    (∀ j ∈ g.created, j ∈ g'.created) ∧ (∀ j, g.node? j = none → g'.contains j = true → j ∈ g'.created) ∧
      ∀ j ∈ g'.created, j ∈ g.created ∨ g.node? j = none := by
  cases does with
  | found =>
    refine ⟨fun _ member => member, fun j dead live => ?_, fun _ => Or.inl⟩
    rw [contains, dead] at live
    cases live
  | @made r layout parentRoot id g₁ type fresh made =>
    have listed : (touch { g₁ with created := id :: g₁.created } id).created = id :: g.created := by
      rw [(touch_pending _ id).2, (create_pending made).2.2.2.2]
    obtain ⟨dead', nodes⟩ := sound.toArena.node?_create made
    rw [listed]
    refine ⟨fun j member => List.mem_cons_of_mem _ member, fun j dead live => ?_, fun j member => ?_⟩
    · by_cases here : j = id
      · exact here ▸ List.mem_cons_self
      · rw [(Quiet.touch _ id).cores.contains] at live
        change (g₁.node? j).isSome = true at live
        rw [nodes, if_neg here, dead] at live
        cases live
    · rcases List.mem_cons.mp member with rfl | before
      · exact Or.inr dead'
      · exact Or.inl before
  | @wrote w id incoming g' owner image set =>
    obtain ⟨n, live, -⟩ := sound.toArena.of_find? owner
    have same : g'.created = g.created := by
      rcases of_setField live set with ⟨rfl, -⟩ | ⟨current, -, -, rfl⟩
      · rfl
      · rw [(touch_pending _ id).2, (tradeField_pending _ _ _).2]
    refine ⟨fun j member => by rwa [same], fun j dead live' => ?_, fun j member => Or.inl (by rwa [same] at member)⟩
    obtain ⟨n', there⟩ := contains_iff.mp live'
    obtain ⟨m, before, -⟩ := of_node?_setField live set there
    -- Writing makes no node.
    rcases before with ⟨rfl, -⟩ | ⟨-, before⟩
    · rw [dead] at live
      cases live
    · rw [dead] at before
      cases before

/-- Evictions and tables of parents have no part in what else a node is. -/
theorem same_of_lone (same : n'.lone = n.lone ∨ n'.lone = n.evict.lone) :
    n'.layout = n.layout ∧ n'.key = n.key ∧ n'.fields = n.fields ∧ n'.holds = n.holds := by
  rcases same with equal | equal
  · simp only [Node.lone, Node.mk.injEq] at equal
    exact ⟨equal.1, equal.2.1, equal.2.2.2.1, equal.2.2.2.2.2.1⟩
  · simp only [Node.lone, Node.evict, Node.mk.injEq] at equal
    exact ⟨equal.1, equal.2.1, equal.2.2.2.1, equal.2.2.2.2.2.1⟩

/-- A loose property that the origins of all nodes have is one of the nodes. -/
theorem Nodes.does {holds : Node → Prop} (loose : Loose holds) (sound : Sound g)
    (origins : ∀ j n, Origin g act j n → holds n) (does : Does g act g') : Nodes holds g' := by
  intro j n' live
  obtain ⟨n, origin, same⟩ := does.origin sound live
  rcases same with kept | evicted
  · exact loose.of_lone kept (origins j n origin)
  · exact loose.of_lone evicted (loose.evict n (origins j n origin))

/-- Acts keep nodes in shape. -/
theorem Performs.shaped {acts : List Act} (performs : Performs acts g g') (sound : Sound g)
    (shaped : Nodes Node.Shaped g) : Nodes Node.Shaped g' := by
  induction performs with
  | nil => exact shaped
  | cons does _ ih =>
    refine ih ((Performs.single does).sound sound).1 ?_
    refine Nodes.does Node.Shaped.loose sound ?_ does
    intro j n origin
    cases origin with
    | kept live => exact shaped j n live
    | made => exact ⟨by simp [Node.new], by simp [Node.new]⟩
    | wrote _ live =>
      have before := shaped j _ live
      exact ⟨by rw [Stored.length_put]; exact before.length, before.cached⟩

end EntityGraph.Graph
