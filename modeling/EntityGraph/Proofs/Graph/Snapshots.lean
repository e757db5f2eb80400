import EntityGraph.Proofs.Graph.Search
import EntityGraph.Proofs.Graph.Settle

/-! No snapshot goes stale: every change evicts the snapshots that it concerns, and a node without a snapshot is queued
to be built again. -/

namespace EntityGraph.Graph

open Relation Step

variable {g : Graph} {F : Formulas} {right : Graph → NodeId → Record → Prop} {r : Record}

/-- Two graphs differ in one node, which is live in the second one, and in tables of parents and orphans. -/
structure Altered (g : Graph) (id : NodeId) (g₁ : Graph) : Prop where
  sound : Sound g₁
  live : g₁.contains id = true
  others : ∀ j, j ≠ id → (g₁.node? j).map Node.lone = (g.node? j).map Node.lone
  changed : g₁.changed = g.changed

/-- A change that absorbing makes is none, or alters one node and marks it as changed. -/
theorem Edit.altered {g' : Graph} (edit : Edit g g') (sound : Sound g) :
    g' = g ∨ ∃ id g₁, Altered g id g₁ ∧ g' = g₁.touch id := by
  cases edit with
  | @make layout key parentRoot id g₁ fresh made =>
    obtain ⟨-, nodes⟩ := sound.toArena.node?_create made
    refine Or.inr ⟨id, { g₁ with created := id :: g₁.created }, ⟨(sound.create fresh made).quiet (.pending g₁ _ _ _),
      ?_, fun j other => ?_, (create_pending made).2.2.1⟩, rfl⟩
    · have here := nodes id
      rw [if_pos rfl] at here
      exact contains_iff.mpr ⟨_, here⟩
    · change (g₁.node? j).map Node.lone = _
      rw [nodes, if_neg other]
  | @put id i incoming g' live targets set =>
    obtain ⟨n, found⟩ := contains_iff.mp live
    rcases of_setField found set with ⟨same, -⟩ | ⟨current, here, -, traded⟩
    · exact Or.inl same
    · refine Or.inr ⟨id, _, ⟨sound.tradeField found i incoming here targets, ?_, fun j other => ?_,
        (tradeField_pending i current incoming).1⟩, traded⟩
      · rw [contains_tradeField found]
        exact live
      · rw [lone_tradeField found, if_neg other]

section lone

variable {g' : Graph} {j : NodeId} (same : (g'.node? j).map Node.lone = (g.node? j).map Node.lone)

include same

theorem content_of_lone : (g'.node? j).map Node.content = (g.node? j).map Node.content := by
  have content : Node.content ∘ Node.lone = Node.content := rfl
  simpa only [Option.map_map, content] using congrArg (Option.map Node.content) same

theorem cached?_of_lone : g'.cached? j = g.cached? j := by
  have cached : Node.cached ∘ Node.lone = Node.cached := rfl
  have read := congrArg (fun m => m.bind Node.cached) same
  simp only [Option.bind_map, cached] at read
  exact read

theorem previous?_of_lone : g'.previous? j = g.previous? j := by
  have previous : Node.previous ∘ Node.lone = Node.previous := rfl
  have read := congrArg (fun m => m.bind Node.previous) same
  simp only [Option.bind_map, previous] at read
  exact read

theorem keyOf_of_lone : g'.keyOf j = g.keyOf j := by
  have key : Node.key ∘ Node.lone = Node.key := rfl
  have read := congrArg (Option.map Node.key) same
  simp only [Option.map_map, key] at read
  rw [keyOf, read, keyOf]

theorem contains_of_lone : g'.contains j = g.contains j := by
  simpa [contains] using congrArg Option.isSome same

end lone

/-- Every live node without a snapshot is one of the given ones. -/
def Pending (g : Graph) (ids : List NodeId) : Prop :=
  ∀ id, g.contains id = true → g.cached? id = none → id ∈ ids

namespace Altered

variable {g₁ : Graph} {id : NodeId} (altered : Altered g id g₁)

include altered

/-- A node that has a snapshot after the change does not lead to the changed node, and had its snapshot before. -/
theorem of_cached {j : NodeId} (found : (g₁.touch id).cached? j = some r) :
    ¬ ReflTransGen g₁.Leads j id ∧ g.cached? j = some r := by
  have apart : ¬ ReflTransGen g₁.Leads j id := by
    intro leads
    have listed := (altered.sound.mem_ancestors altered.live j).mpr leads
    simp only [cached?, touch, node?_noteChanges, if_pos listed] at found
    cases there : g₁.node? j with
    | none => simp [there] at found
    | some n => simp [there, Node.evict] at found
  refine ⟨apart, ?_⟩
  have other : j ≠ id := by
    rintro rfl
    exact apart .refl
  rw [← cached?_of_lone (altered.others j other), ← found]
  simp only [cached?, altered.sound.node?_touch_of_not altered.live apart]

theorem sameBelow {j : NodeId} (apart : ¬ ReflTransGen g₁.Leads j id) : SameBelow g g₁ j := by
  have back : SameBelow g₁ g j := by
    intro c leads
    refine (content_of_lone (altered.others c ?_)).symm
    rintro rfl
    exact apart leads
  exact back.symm

/-- What was right for nodes is right for those that keep their snapshots. -/
theorem snapshots (transmits : Transmits F right) (snapshots : Snapshots right g) : Snapshots right (g₁.touch id) := by
  intro j r found
  obtain ⟨apart, before⟩ := altered.of_cached found
  have marked := (Quiet.touch g₁ id).cores
  -- Nothing below the node changed, and its snapshot is the one that it had.
  refine transmits.below (marked.sameBelow j) (fun c _ => marked.keyOf c) ?_
  refine transmits.below (altered.sameBelow apart) (fun c leads => ?_) (snapshots j r before)
  refine keyOf_of_lone (altered.others c ?_)
  rintro rfl
  exact apart (((altered.sameBelow apart).leads_iff c).mpr leads)

theorem coherent (coherent : Coherent F g) : Coherent F (g₁.touch id) :=
  altered.snapshots (.unfolds F) coherent

theorem snapshotsClosed (closed : SnapshotsClosed g) : SnapshotsClosed (g₁.touch id) := by
  intro p c built link
  obtain ⟨r, found⟩ := Option.isSome_iff_exists.mp built
  obtain ⟨apart, before⟩ := altered.of_cached found
  rw [Leads, (Quiet.touch g₁ id).cores.outgoing] at link
  -- The target does not lead to the changed node either, so it keeps its snapshot.
  have apart' : ¬ ReflTransGen g₁.Leads c id := fun leads => apart (.head link leads)
  have other : c ≠ id := by
    rintro rfl
    exact apart' .refl
  have link₀ : g.Leads p c := by
    rw [Leads, ← SameBelow.outgoing_eq (altered.sameBelow apart p .refl)]
    exact link
  have built₀ := closed p c (by rw [before]; rfl) link₀
  rw [← cached?_of_lone (altered.others c other)] at built₀
  simpa only [cached?, altered.sound.node?_touch_of_not altered.live apart'] using built₀

theorem pending (pending : Pending g g.changed) : Pending (g₁.touch id) (g₁.touch id).changed := by
  intro j live lacks
  rw [altered.sound.mem_changed_touch altered.live]
  by_cases leads : ReflTransGen g₁.Leads j id
  · exact Or.inr leads
  · -- A node that the change does not concern lacked its snapshot before.
    have other : j ≠ id := by
      rintro rfl
      exact leads .refl
    have same := altered.others j other
    rw [(Quiet.touch g₁ id).cores.contains, contains_of_lone same] at live
    simp only [cached?, altered.sound.node?_touch_of_not altered.live leads] at lacks
    rw [altered.changed]
    exact Or.inl (pending j live ((cached?_of_lone same).symm.trans lacks))

end Altered

/-- Changes that absorbing makes keep what is right for nodes. -/
theorem Transmits.edits (transmits : Transmits F right) {g' : Graph} (sound : Sound g)
    (snapshots : Snapshots right g) (edits : Edits g g') : Snapshots right g' := by
  induction edits with
  | refl => exact snapshots
  | @tail g₁ g₂ before edit ih =>
    rcases edit.altered (Edits.sound before sound).1 with rfl | ⟨id, g₃, altered, rfl⟩
    · exact ih
    · exact altered.snapshots transmits ih

/-- Removing garbage keeps it, too. -/
theorem Transmits.sweep (transmits : Transmits F right) (sound : Sound g) (snapshots : Snapshots right g) :
    Snapshots right g.sweep := by
  have swept := sound.sweep
  -- What is live after the sweep is as it was, and leads to what it led to.
  have kept : ∀ j, g.sweep.contains j = true → (g.sweep.node? j).map Node.lone = (g.node? j).map Node.lone :=
    fun j live => swept.kept j ((swept.contains_iff j).mp live).2
  intro id r found
  obtain ⟨n, there, -⟩ := Option.bind_eq_some_iff.mp found
  have live : g.sweep.contains id = true := contains_iff.mpr ⟨n, there⟩
  have below : ∀ c, ReflTransGen g.sweep.Leads id c → g.sweep.contains c = true :=
    fun c leads => swept.sound.live_of_leads leads live
  have same : SameBelow g.sweep g id := fun c leads => (content_of_lone (kept c (below c leads))).symm
  rw [cached?_of_lone (kept id live)] at found
  refine transmits.below same.symm (fun c leads => ?_) (snapshots id r found)
  exact keyOf_of_lone (kept c (below c ((same.leads_iff c).mp leads)))

/-- Whether snapshots are right is a matter of the nodes' fields, keys and snapshots. -/
theorem Transmits.congr (transmits : Transmits F right) {g' : Graph}
    (content : ∀ j, (g'.node? j).map Node.content = (g.node? j).map Node.content) (keys : ∀ j, g'.keyOf j = g.keyOf j)
    (cached : ∀ j, g'.cached? j = g.cached? j) (snapshots : Snapshots right g) : Snapshots right g' := by
  intro id r found
  rw [cached] at found
  exact transmits.below (fun c _ => content c) (fun c _ => keys c) (snapshots id r found)

section congr

variable {g' : Graph}
  (content : ∀ j, (g'.node? j).map Node.content = (g.node? j).map Node.content)
  (cached : ∀ j, g'.cached? j = g.cached? j)

include content cached

theorem Coherent.congr (coherent : Coherent F g) : Coherent F g' := by
  intro id r found straight
  have same : SameBelow g g' id := fun c _ => content c
  rw [cached] at found
  exact same.unfolds (coherent id r found (same.symm.noCycle straight))

theorem SnapshotsClosed.congr (closed : SnapshotsClosed g) : SnapshotsClosed g' := by
  intro p c built link
  rw [cached] at built ⊢
  rw [Leads, SameBelow.outgoing_eq (content p)] at link
  exact closed p c built link

end congr

/-- What holds of the snapshots of every graph that operations lead to: none is stale, what they are made from has
snapshots too, and nodes without a snapshot are queued. -/
structure Fresh (F : Formulas) (g : Graph) : Prop where
  coherent : Coherent F g
  closed : SnapshotsClosed g
  pending : Pending g g.changed

namespace Fresh

variable {g' : Graph}

/-- Snapshots are a matter of the nodes' fields and snapshots, and of the queue. -/
theorem congr (fresh : Fresh F g) (content : ∀ j, (g'.node? j).map Node.content = (g.node? j).map Node.content)
    (cached : ∀ j, g'.cached? j = g.cached? j) (changed : ∀ j ∈ g.changed, j ∈ g'.changed) : Fresh F g' := by
  refine ⟨fresh.coherent.congr content cached, fresh.closed.congr content cached, fun id live lacks => changed id ?_⟩
  rw [cached] at lacks
  refine fresh.pending id ?_ lacks
  have read := congrArg Option.isSome (content id)
  simp only [Option.isSome_map] at read
  exact read.symm.trans live

/-- Changes that absorbing makes keep this so. -/
theorem edits (fresh : Fresh F g) (sound : Sound g) (edits : Edits g g') : Fresh F g' := by
  induction edits with
  | refl => exact fresh
  | @tail g₁ g₂ before edit ih =>
    rcases edit.altered (Edits.sound before sound).1 with rfl | ⟨id, g₃, altered, rfl⟩
    · exact ih
    · exact ⟨altered.coherent ih.coherent, altered.snapshotsClosed ih.closed, altered.pending ih.pending⟩

/-- Removing garbage keeps it so. -/
theorem sweep (fresh : Fresh F g) (sound : Sound g) : Fresh F g.sweep := by
  have swept := sound.sweep
  -- What is live after the sweep is as it was, and leads to what it led to.
  have kept : ∀ j, g.sweep.contains j = true → (g.sweep.node? j).map Node.lone = (g.node? j).map Node.lone :=
    fun j live => swept.kept j ((swept.contains_iff j).mp live).2
  have live_of_cached : ∀ {j}, (g.sweep.cached? j).isSome = true → g.sweep.contains j = true := by
    intro j built
    obtain ⟨r, found⟩ := Option.isSome_iff_exists.mp built
    obtain ⟨n, there, -⟩ := Option.bind_eq_some_iff.mp found
    exact contains_iff.mpr ⟨n, there⟩
  refine ⟨(Transmits.unfolds F).sweep sound fresh.coherent, fun p c built link => ?_, fun id live lacks => ?_⟩
  · have live := live_of_cached built
    rw [cached?_of_lone (kept p live)] at built
    rw [cached?_of_lone (kept c (swept.sound.closed p c link))]
    rw [Leads, SameBelow.outgoing_eq (content_of_lone (kept p live))] at link
    exact fresh.closed p c built link
  · rw [cached?_of_lone (kept id live)] at lacks
    have before := ((swept.contains_iff id).mp live).1
    exact (sound.mem_changed_sweep live).mpr (fresh.pending id before lacks)

/-- Building a node keeps it so. -/
theorem built (fresh : Fresh F g) (leafy : Leafy g) {id : NodeId} (built : Built F g id r g') : Fresh F g' := by
  refine ⟨built.coherent leafy fresh.coherent, built.closed leafy fresh.closed, fun j live lacks => ?_⟩
  have changed : g'.changed = g.changed := by rw [built.rest]
  rw [changed]
  rw [built.cores.contains] at live
  refine fresh.pending j live ?_
  by_contra before
  obtain ⟨s, found⟩ := Option.ne_none_iff_exists'.mp before
  rw [built.kept j s found] at lacks
  cases lacks

end Fresh

end EntityGraph.Graph
