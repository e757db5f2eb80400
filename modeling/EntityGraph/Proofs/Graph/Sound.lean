import EntityGraph.Proofs.Graph.Links

/-! Sound graphs: incoming counts and outgoing links agree, and links lead to live nodes. Replacing fields, marking
changes and removing garbage keep a graph sound. -/

namespace EntityGraph

/-- A node before and after a change that keeps its type, key, root and holds. -/
structure Node.Stays (n n' : Node) : Prop where
  layout : n'.layout = n.layout
  key : n'.key = n.key
  root : n'.root = n.root
  holds : n'.holds = n.holds

theorem Node.Stays.trans {n₁ n₂ n₃ : Node} (first : n₁.Stays n₂) (second : n₂.Stays n₃) : n₁.Stays n₃ where
  layout := second.layout.trans first.layout
  key := second.key.trans first.key
  root := second.root.trans first.root
  holds := second.holds.trans first.holds

theorem Node.Stays.of_core {n n' : Node} (core : n'.core = n.core) : n.Stays n' where
  layout := by simpa [Node.core] using congrArg Node.layout core
  key := by simpa [Node.core] using congrArg Node.key core
  root := by simpa [Node.core] using congrArg Node.root core
  holds := by simpa [Node.core] using congrArg Node.holds core

namespace Graph

variable {g g' : Graph} {id : NodeId} {layout : Layout} {parentRoot : Option NodeId} {g₁ g₂ g₃ : Graph} {key : Key}

/-- The tables agree with the slots, every table of parents holds the numbers of links that there are, and every link
leads to a live node. -/
structure Sound (g : Graph) : Prop extends Arena g where
  counted : Counted g fun p c => (g.outgoing p).count c
  closed : ∀ p c, c ∈ g.outgoing p → g.contains c = true

theorem Sound.empty (schema : Schema) (maxRounds : Nat) : Sound (Graph.empty schema maxRounds) where
  toArena := .empty schema maxRounds
  counted := by simp [Counted]
  closed := by simp [outgoing]

/-- What an operation on snapshots leaves alone: also the tables of parents. -/
structure Quiet (g g' : Graph) : Prop extends Framed g g' where
  parents : ∀ id, (g'.node? id).map Node.parents = (g.node? id).map Node.parents

namespace Quiet

theorem refl (g : Graph) : Quiet g g :=
  ⟨.refl g, fun _ => rfl⟩

theorem trans (first : Quiet g₁ g₂) (second : Quiet g₂ g₃) : Quiet g₁ g₃ where
  toFramed := first.toFramed.trans second.toFramed
  parents id := (second.parents id).trans (first.parents id)

theorem update (g : Graph) (id : NodeId) {f : Node → Node} (core : ∀ n, (f n).core = n.core)
    (parents : ∀ n, (f n).parents = n.parents) : Quiet g (g.update id f) where
  toFramed := .update g id core
  parents := map_node?_update g id f Node.parents parents

theorem pending (g : Graph) (changed orphans created : List NodeId) :
    Quiet g { g with changed := changed, orphans := orphans, created := created } where
  toFramed := .pending g changed orphans created
  parents _ := rfl

/-- Marking nodes as changed drops snapshots only. -/
theorem touch (g : Graph) (id : NodeId) : Quiet g (g.touch id) := by
  -- One node loses its snapshot and is queued, and so does every node above it.
  have step : ∀ (g : Graph) (id : NodeId), Quiet g (g.noteChange id) := fun g id =>
    (Quiet.update g id (f := Node.evict) (fun _ => rfl) (fun _ => rfl)).trans (.pending _ _ _ _)
  unfold Graph.touch
  generalize g.ancestors id = ids
  induction ids generalizing g with
  | nil => exact .refl g
  | cons id rest ih => exact (step g id).trans (ih (g.noteChange id))

end Quiet

/-- What keeps cores and tables keeps a graph sound. -/
theorem Sound.quiet (sound : Sound g) (quiet : Quiet g g') : Sound g' where
  toArena := quiet.arena sound.toArena
  counted := sound.counted.congr quiet.parents fun p c _ => by rw [quiet.cores.outgoing]
  closed p c link := by
    rw [quiet.cores.outgoing] at link
    rw [quiet.cores.contains]
    exact sound.closed p c link

/-- Every handle stays live, and its node is the same apart from fields, parents and snapshots. -/
structure Grows (g g' : Graph) : Prop where
  schema : g'.schema = g.schema
  live : ∀ id n, g.node? id = some n → ∃ n', g'.node? id = some n' ∧ n.Stays n'

namespace Grows

theorem refl (g : Graph) : Grows g g :=
  ⟨rfl, fun _ n live => ⟨n, live, .of_core rfl⟩⟩

theorem trans (first : Grows g₁ g₂) (second : Grows g₂ g₃) : Grows g₁ g₃ := by
  refine ⟨second.schema.trans first.schema, fun id n live => ?_⟩
  obtain ⟨n₂, live₂, stays₂⟩ := first.live id n live
  obtain ⟨n₃, live₃, stays₃⟩ := second.live id n₂ live₂
  exact ⟨n₃, live₃, stays₂.trans stays₃⟩

theorem contains (grows : Grows g g') (live : g.contains id = true) : g'.contains id = true := by
  obtain ⟨n, found⟩ := contains_iff.mp live
  obtain ⟨n', found', -⟩ := grows.live id n found
  exact contains_iff.mpr ⟨n', found'⟩

theorem of_framed (framed : Framed g g') : Grows g g' := by
  refine ⟨framed.schema, fun id n live => ?_⟩
  obtain ⟨n', live', core⟩ := framed.cores.exists_live live
  exact ⟨n', live', .of_core core⟩

end Grows

/-- The graph with one field of a node replaced and the links of the old field traded for those of the new one. -/
def tradeField (g : Graph) (id : NodeId) (i : Nat) (current incoming : Field Stored) : Graph :=
  let dropped := (Stored.fieldLinks [current]).foldl (unlink id) g
  let replaced := dropped.update id fun n => { n with fields := n.fields.set i incoming }
  (Stored.fieldLinks [incoming]).foldl (link id) replaced

/-- Replacing a field of a live node never fails. It trades links and marks the node as changed, unless the field is
not there or is alike. -/
theorem setField_eq {n : Node} (live : g.node? id = some n) (i : Nat) (incoming : Field Stored) :
    g.setField id i incoming = .ok (match n.fields[i]? with
      | none => g
      | some current =>
        if Stored.sameField current incoming then g else (g.tradeField id i current incoming).touch id) := by
  simp only [setField, node, live, bind, Except.bind]
  cases n.fields[i]? with
  | none => rfl
  | some current =>
    simp only
    split <;> rfl

/-- Replacing a field of a live node leaves the graph as it is, or trades the links of a field that differs. -/
theorem of_setField {n : Node} (live : g.node? id = some n) {i : Nat} {incoming : Field Stored}
    (set : g.setField id i incoming = .ok g') :
    (g' = g ∧ ∀ current, n.fields[i]? = some current → Stored.sameField current incoming = true) ∨
      ∃ current, n.fields[i]? = some current ∧ Stored.sameField current incoming = false ∧
        g' = (g.tradeField id i current incoming).touch id := by
  rw [setField_eq live, Except.ok.injEq] at set
  cases here : n.fields[i]? with
  | none =>
    rw [here] at set
    exact Or.inl ⟨set.symm, by simp⟩
  | some current =>
    rw [here] at set
    simp only at set
    split at set
    · rename_i alike
      exact Or.inl ⟨set.symm, by simpa using alike⟩
    · rename_i differs
      exact Or.inr ⟨current, rfl, by simpa using differs, set.symm⟩

section tradeField

variable {n : Node} (live : g.node? id = some n) (i : Nat) (current incoming : Field Stored)

include live

/-- Trading a field changes that field, and tables of parents. -/
theorem lone_tradeField (j : NodeId) :
    ((g.tradeField id i current incoming).node? j).map Node.lone =
      if j = id then some { n.lone with fields := n.fields.set i incoming } else (g.node? j).map Node.lone := by
  unfold tradeField
  have dropped := lone_unlinks id g (Stored.fieldLinks [current])
  generalize (Stored.fieldLinks [current]).foldl (unlink id) g = g₁ at dropped
  rw [lone_links, node?_update]
  split
  · -- The node itself is as it was, up to its table, before its field is replaced.
    have here := dropped id
    rw [live, Option.map_some, Option.map_eq_some_iff] at here
    obtain ⟨n₁, live₁, lone⟩ := here
    have fields : n₁.fields = n.fields := by simpa [Node.lone] using congrArg Node.fields lone
    rw [live₁, ← lone]
    simp [Node.lone, fields]
  · exact dropped j

/-- Trading a field changes the core of its node by that field only. -/
theorem core_tradeField (j : NodeId) :
    ((g.tradeField id i current incoming).node? j).map Node.core =
      if j = id then some { n.core with fields := n.fields.set i incoming } else (g.node? j).map Node.core := by
  have core : Node.core ∘ Node.lone = Node.core := rfl
  rw [← core, ← Option.map_map, lone_tradeField live, apply_ite (Option.map Node.core), Option.map_map]
  rfl

theorem contains_tradeField (j : NodeId) : (g.tradeField id i current incoming).contains j = g.contains j := by
  have read := congrArg Option.isSome (core_tradeField live i current incoming j)
  by_cases same : j = id
  · subst same
    simpa [contains, live] using read
  · simpa [contains, same] using read

/-- The links after trading a field. -/
theorem outgoing_tradeField (j : NodeId) :
    (g.tradeField id i current incoming).outgoing j =
      if j = id then Stored.fieldLinks (n.fields.set i incoming) else g.outgoing j := by
  have read := congrArg (fun m => (m.map Node.links).getD [])
    (core_tradeField live i current incoming j)
  -- The links of a node are in its core.
  have links : Node.links ∘ Node.core = Node.links := rfl
  by_cases same : j = id
  · rw [if_pos same] at read ⊢
    simp only [Option.map_map, links, Option.map_some, Option.getD_some] at read
    exact read
  · rw [if_neg same] at read ⊢
    simpa only [outgoing, Option.map_map, links] using read

/-- Trading a field for one whose links lead to live nodes keeps a graph sound. -/
theorem Sound.tradeField {current : Field Stored} (sound : Sound g) (here : n.fields[i]? = some current)
    (targets : ∀ c ∈ Stored.fieldLinks [incoming], g.contains c = true) :
    Sound (g.tradeField id i current incoming) := by
  have trade := Stored.count_fieldLinks_set here
  -- The old field holds no more links than its node.
  have part : ∀ c, (Stored.fieldLinks [current]).count c ≤ (g.outgoing id).count c := by
    intro c
    have emptied := trade .absent c
    rw [outgoing_of_live live, Node.links]
    simp only [Stored.fieldLinks, List.count_nil] at emptied ⊢
    omega
  have own : ∀ c, (g.outgoing id).count c = (Stored.fieldLinks n.fields).count c := by
    intro c
    rw [outgoing_of_live live, Node.links]
  refine ⟨?_, ?_, ?_⟩
  · -- The tables of the arena do not depend on fields or parents.
    unfold Graph.tradeField
    refine (Framed.foldl (Framed.link id) _ _).arena ?_
    refine Arena.update ?_ id (fun _ => rfl) (fun _ => rfl)
    exact (Framed.foldl (Framed.unlink id) g _).arena sound.toArena
  · -- The counts go down by the old links and up by the new ones, as the links do.
    have dropped := sound.counted.unlinks id (Stored.fieldLinks [current])
    have replaced : Counted (((Stored.fieldLinks [current]).foldl (unlink id) g).update id
        fun n => { n with fields := n.fields.set i incoming }) _ :=
      dropped.congr (map_node?_update _ id _ Node.parents fun _ => rfl) (fun _ _ _ => rfl)
    refine (replaced.links id (Stored.fieldLinks [incoming])).congr (fun _ => rfl) fun p c _ => ?_
    rw [outgoing_tradeField live i current incoming]
    by_cases same : p = id
    · -- The old links are part of the node's, so nothing is cut off at zero.
      subst same
      have traded := trade incoming c
      have enough := part c
      have before := own c
      simp only [if_true]
      omega
    · simp [same]
  · -- A link of the new fields is one of the old ones or one of the new field.
    intro p c link
    rw [contains_tradeField live i current incoming]
    rw [outgoing_tradeField live i current incoming] at link
    split at link
    · have positive := List.count_pos_iff.mpr link
      have traded := trade incoming c
      by_cases new : c ∈ Stored.fieldLinks [incoming]
      · exact targets c new
      · have none := List.count_eq_zero.mpr new
        apply sound.closed id c
        rw [← List.count_pos_iff, own]
        omega
    · exact sound.closed p c link

/-- Trading a field leaves every handle live, with its node's type, key, root and holds. -/
theorem Grows.tradeField : Grows g (g.tradeField id i current incoming) := by
  refine ⟨?_, fun j m found => ?_⟩
  · unfold Graph.tradeField
    rw [(Framed.foldl (Framed.link id) _ _).schema, update_schema, (Framed.foldl (Framed.unlink id) g _).schema]
  · have core := core_tradeField live i current incoming j
    split at core
    · -- The node itself differs in its fields only.
      rename_i same
      rw [same, live] at found
      cases found
      obtain ⟨n', live', core⟩ := Option.map_eq_some_iff.mp core
      refine ⟨n', live', ?_, ?_, ?_, ?_⟩
      · simpa [Node.core] using congrArg Node.layout core
      · simpa [Node.core] using congrArg Node.key core
      · simpa [Node.core] using congrArg Node.root core
      · simpa [Node.core] using congrArg Node.holds core
    · rw [found, Option.map_some, Option.map_eq_some_iff] at core
      obtain ⟨n', live', core⟩ := core
      exact ⟨n', live', .of_core core⟩

end tradeField

/-- Replacing a field of a live node by one whose links lead to live nodes keeps a graph sound and all handles live. -/
theorem Sound.setField (sound : Sound g) (live : g.contains id = true) (i : Nat) {incoming : Field Stored}
    (targets : ∀ c ∈ Stored.fieldLinks [incoming], g.contains c = true) :
    ∃ g', g.setField id i incoming = .ok g' ∧ Sound g' ∧ Grows g g' := by
  obtain ⟨n, found⟩ := contains_iff.mp live
  refine ⟨_, setField_eq found i incoming, ?_⟩
  cases here : n.fields[i]? with
  | none => exact ⟨sound, .refl g⟩
  | some current =>
    simp only
    split
    · -- A field that is alike is kept, and nothing is marked as changed.
      exact ⟨sound, .refl g⟩
    · have traded := sound.tradeField found i incoming here targets
      have quiet := Quiet.touch (g.tradeField id i current incoming) id
      exact ⟨traded.quiet quiet, (Grows.tradeField found i current incoming).trans (.of_framed quiet.toFramed)⟩

theorem Arena.outgoing_create (arena : Arena g) (made : g.create layout key parentRoot = (id, g'))
    (p : NodeId) : g'.outgoing p = g.outgoing p := by
  obtain ⟨dead, nodes⟩ := arena.node?_create made
  simp only [outgoing, nodes]
  split
  · rename_i same
    rw [same, dead]
    simp [Node.links, Node.new, Stored.fieldLinks_replicate]
  · rfl

/-- Making a node of a new key keeps a graph sound. -/
theorem Sound.create (sound : Sound g) (fresh : g.find? key = none)
    (made : g.create layout key parentRoot = (id, g')) : Sound g' := by
  obtain ⟨dead, nodes⟩ := sound.toArena.node?_create made
  have links := sound.toArena.outgoing_create made
  -- Nothing links to a handle that was dead.
  have unreached : ∀ p, id ∉ g.outgoing p := by
    intro p link
    have := sound.closed p id link
    simp [contains, dead] at this
  refine ⟨sound.toArena.create fresh made, ?_, ?_⟩
  · intro c n live
    rw [nodes] at live
    split at live
    · -- The table of the new node is empty, as it should be.
      rename_i same
      subst same
      cases live
      refine (Node.Counts.new layout key _).congr rfl fun p => ?_
      simpa only [links] using List.count_eq_zero.mpr (unreached p)
    · exact (sound.counted c n live).congr rfl fun p => by simp only [links]
  · intro p c link
    rw [links] at link
    obtain ⟨n, live⟩ := contains_iff.mp (sound.closed p c link)
    rw [contains_iff]
    refine ⟨n, ?_⟩
    rw [nodes, if_neg, live]
    rintro rfl
    exact unreached p link

/-- A new node leaves the others as they are. -/
theorem Grows.create (arena : Arena g) (made : g.create layout key parentRoot = (id, g')) : Grows g g' := by
  obtain ⟨dead, nodes⟩ := arena.node?_create made
  refine ⟨(create_pending made).1, fun j n live => ⟨n, ?_, .of_core rfl⟩⟩
  -- A handle that was live is not the new one.
  rw [nodes, if_neg, live]
  rintro rfl
  rw [dead] at live
  cases live

end Graph

end EntityGraph
