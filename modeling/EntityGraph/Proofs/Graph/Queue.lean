import EntityGraph.Proofs.Graph.Reachable

/-! The queue of changes in runs without reads: nodes are built by settling only, so that exactly the queued nodes have
no snapshot, and an evicted snapshot is that of a queued node. -/

namespace EntityGraph.Graph

open Relation Step

/-- What holds of the queue when nothing but settling builds nodes. -/
structure Queued (g : Graph) : Prop where
  evicted : ∀ j, (g.previous? j).isSome = true → j ∈ g.changed
  unbuilt : ∀ j ∈ g.changed, g.cached? j = none
  pending : Pending g g.changed
  sorted : g.changed.Pairwise fun a b => NodeId.lt a b = true

/-- A sweep only takes nodes from the queue. -/
theorem changed_sweep_sublist (g : Graph) : g.sweep.changed.Sublist g.changed := by
  -- Each node that is collected is taken off the queue.
  have general : ∀ (fuel : Nat) (g : Graph), (Graph.sweepUpTo fuel g).changed.Sublist g.changed := by
    intro fuel
    induction fuel with
    | zero => exact fun g => .refl _
    | succ fuel ih =>
      intro g
      unfold Graph.sweepUpTo
      split
      · exact .refl _
      · refine (ih _).trans ?_
        unfold Graph.collect
        split
        · exact .refl _
        · rw [(changed_unlinks _ _ _).1]
          exact List.filter_sublist
  exact general g.liveCount g

/-- The queue stays in order. -/
theorem sorted_touch {g : Graph} (sorted : g.changed.Pairwise fun a b => NodeId.lt a b = true) (id : NodeId) :
    (g.touch id).changed.Pairwise fun a b => NodeId.lt a b = true := by
  unfold touch
  generalize g.ancestors id = ids
  induction ids generalizing g with
  | nil => exact sorted
  | cons j rest ih =>
    have kept : (g.update j Node.evict).changed.Pairwise fun a b => NodeId.lt a b = true := by
      rw [update_changed]
      exact sorted
    exact ih (@Ordered.pairwise_insert _ NodeId.lt _ _ (fun _ _ _ => NodeId.lt_trans) kept)

/-- A change that absorbing makes evicts and queues the same nodes. -/
theorem Altered.queued {g g₁ : Graph} {id : NodeId} (altered : Altered g id g₁) (queued : Queued g) :
    Queued (g₁.touch id) := by
  refine ⟨fun j evicted => ?_, fun j member => ?_, altered.pending queued.pending,
    sorted_touch (by rw [altered.changed]; exact queued.sorted) id⟩
  · rw [altered.sound.mem_changed_touch altered.live]
    by_cases leads : ReflTransGen g₁.Leads j id
    · exact Or.inr leads
    · have other : j ≠ id := by
        rintro rfl
        exact leads .refl
      simp only [previous?, altered.sound.node?_touch_of_not altered.live leads] at evicted
      rw [altered.changed]
      refine Or.inl (queued.evicted j ?_)
      rw [← previous?_of_lone (altered.others j other)]
      exact evicted
  · rw [altered.sound.mem_changed_touch altered.live] at member
    cases cached : (g₁.touch id).cached? j with
    | none => rfl
    | some r =>
      -- A node with a snapshot is not concerned, so it was queued before, and had none.
      obtain ⟨apart, before⟩ := altered.of_cached cached
      have earlier := member.resolve_right apart
      rw [altered.changed] at earlier
      rw [queued.unbuilt j earlier] at before
      cases before

namespace Queued

variable {F : Formulas} {g g' : Graph} {j : NodeId} {diff : Diff} {results : List (Task × Field Value)}

theorem empty (s : Schema) (maxRounds : Nat) : Queued (Graph.empty s maxRounds) :=
  ⟨fun j evicted => (by cases evicted), fun j member => (by cases member), fun j live => (by cases live), .nil⟩

variable (queued : Queued g)
include queued

/-- No node is queued twice. -/
theorem once : g.changed.Nodup :=
  queued.sorted.imp fun {a b} before same => by
    rw [same, NodeId.lt_irrefl] at before
    cases before

/-- A node with a snapshot has no evicted one. -/
theorem previous_eq_none {r : Record} (cached : g.cached? j = some r) : g.previous? j = none := by
  cases evicted : g.previous? j with
  | none => rfl
  | some p =>
    rw [queued.unbuilt j (queued.evicted j (by rw [evicted]; rfl))] at cached
    cases cached

/-- It is a matter of snapshots and of the queue. -/
theorem congr (live : ∀ j, g'.contains j = g.contains j)
    (cached : ∀ j, g'.cached? j = g.cached? j) (previous : ∀ j, g'.previous? j = g.previous? j)
    (changed : g'.changed = g.changed) : Queued g' where
  evicted j evicted := by
    rw [previous] at evicted
    rw [changed]
    exact queued.evicted j evicted
  unbuilt j member := by
    rw [changed] at member
    rw [cached]
    exact queued.unbuilt j member
  pending j alive lacks := by
    rw [live] at alive
    rw [cached] at lacks
    rw [changed]
    exact queued.pending j alive lacks
  sorted := by rw [changed]; exact queued.sorted

/-- What absorbing does keeps the queue right. -/
theorem edits (sound : Sound g) (edits : Edits g g') : Queued g' := by
  induction edits with
  | refl => exact queued
  | @tail g₁ g₂ before edit ih =>
    rcases edit.altered (Edits.sound before sound).1 with rfl | ⟨id, g₃, altered, rfl⟩
    · exact ih
    · exact altered.queued ih

/-- So does a sweep. -/
theorem sweep (sound : Sound g) : Queued g.sweep := by
  have swept := sound.sweep
  have kept : ∀ j, g.sweep.contains j = true → (g.sweep.node? j).map Node.lone = (g.node? j).map Node.lone :=
    fun j live => swept.kept j ((swept.contains_iff j).mp live).2
  refine ⟨fun j evicted => ?_, fun j member => ?_, fun j live lacks => ?_,
    queued.sorted.sublist (changed_sweep_sublist g)⟩
  · obtain ⟨r, found⟩ := Option.isSome_iff_exists.mp evicted
    obtain ⟨n, there, -⟩ := Option.bind_eq_some_iff.mp found
    have live := contains_iff.mpr ⟨n, there⟩
    rw [previous?_of_lone (kept j live)] at evicted
    exact (sound.mem_changed_sweep live).mpr (queued.evicted j evicted)
  · cases cached : g.sweep.cached? j with
    | none => rfl
    | some r =>
      obtain ⟨n, there, -⟩ := Option.bind_eq_some_iff.mp cached
      rw [cached?_of_lone (kept j (contains_iff.mpr ⟨n, there⟩)),
        queued.unbuilt j ((changed_sweep_sublist g).subset member)] at cached
      cases cached
  · rw [cached?_of_lone (kept j live)] at lacks
    have before := ((swept.contains_iff j).mp live).1
    exact (sound.mem_changed_sweep live).mpr (queued.pending j before lacks)

/-- Holding a node or letting it go changes none of it. -/
theorem holds (id : NodeId) (f : Nat → Nat) : Queued (g.update id fun n => { n with holds := f n.holds }) := by
  have same : ∀ {α : Type} (read : Node → Option α), (∀ n, read { n with holds := f n.holds } = read n) →
      ∀ j, ((g.update id fun n => { n with holds := f n.holds }).node? j).bind read = (g.node? j).bind read := by
    intro α read blind j
    rw [node?_update]
    split
    · rename_i here
      subst here
      cases g.node? j with
      | none => rfl
      | some n => exact blind n
    · rfl
  have live := map_node?_update g id (fun n => { n with holds := f n.holds }) Node.layout fun _ => rfl
  refine queued.congr (fun j => ?_) (same Node.cached fun _ => rfl) (same Node.previous fun _ => rfl)
    (update_changed g id _)
  simpa [contains] using congrArg Option.isSome (live j)

/-- After the first part of a round every node has its snapshot, and none is evicted. -/
theorem built (derived : Derived F g diff results g') (live : g'.contains j = true) :
    (∃ r, g'.cached? j = some r) ∧ g'.previous? j = none := by
  constructor
  · rw [derived.cores.contains] at live
    cases before : g.cached? j with
    | some r => exact ⟨r, derived.kept j r before⟩
    | none => exact Option.isSome_iff_exists.mp (derived.built j (queued.pending j live before) live)
  · rw [derived.previous]
    split
    · rfl
    · rename_i apart
      by_contra evicted
      exact apart (queued.evicted j (Option.isSome_iff_ne_none.mpr evicted))

/-- The first part of a round keeps the queue right. -/
theorem derived (derived : Derived F g diff results g') : Queued g' := by
  have emptied : g'.changed = [] := by rw [derived.twins.rest]
  refine ⟨fun j evicted => ?_, by simp [emptied], fun j live lacks => ?_, by simp [emptied]⟩
  · obtain ⟨r, found⟩ := Option.isSome_iff_exists.mp evicted
    obtain ⟨n, there, -⟩ := Option.bind_eq_some_iff.mp found
    rw [(queued.built derived (contains_iff.mpr ⟨n, there⟩)).2] at evicted
    cases evicted
  · obtain ⟨r, found⟩ := (queued.built derived live).1
    rw [lacks] at found
    cases found

/-- So does a round, whether it fails or not. -/
theorem round (sound : Sound g) (F : Formulas) :
    Ends (Graph.round F) g (fun _ g' => Sound g' ∧ Queued g') fun _ g' => Queued g' := by
  obtain ⟨diff, g₁, derived, sound₁, ends⟩ := sound.round_parts F
  have queued₁ := queued.derived derived
  refine ends.mono ?_ ?_
  · rintro _ g' ⟨-, merged, performs, rfl⟩
    have merged_ := (performs.sound sound₁).1
    exact ⟨merged_.sweep.sound, (queued₁.edits sound₁ (performs.edits sound₁)).sweep merged_⟩
  · rintro _ g' ⟨-, done, -, performs⟩
    exact queued₁.edits sound₁ (performs.edits sound₁)

/-- So does settling. -/
theorem settles (sound : Sound g) (F : Formulas) :
    Ends (Graph.settle F) g (fun _ g' => Queued g') fun _ g' => Queued g' := by
  have keeps := @settle_keeps F g (fun _ h => Sound h ∧ Queued h) Queued ⟨sound, queued⟩
    (fun _ _ held => held.2) fun h _ _ held => held.2.round held.1 F
  exact keeps.mono (fun _ _ held => held.1.2) fun _ _ held => held

theorem others (orphans created : List NodeId) : Queued { g with orphans := orphans, created := created } :=
  queued.congr (fun _ => rfl) (fun _ => rfl) (fun _ => rfl) rfl

end Queued

/-- An operation that changes the graph or settles it, and does not read it. -/
def Operation.IsPlain : Operation → Prop
  | .absorb _ _ | .retain _ | .release _ | .settle _ => True
  | .build _ | .invalidate _ | .takePrevious _ => False

/-- Operations without reads keep the queue so. -/
theorem Queued.apply {g : Graph} (queued : Queued g) (sound : Sound g) (F : Formulas) {op : Operation}
    (plain : op.IsPlain) : Queued (op.apply F g) := by
  cases op with
  | absorb r parentRoot =>
    exact Operation.apply_absorb sound fun _ _ _ _ performs => ((queued.edits sound (performs.edits sound)).others
      _ _).sweep ((performs.sound sound).1.quiet (.pending _ _ _ _))
  | retain id => exact Operation.apply_retain queued fun _ => queued.holds id (· + 1)
  | release id =>
    exact Operation.apply_release queued fun _ => ((queued.holds id (· - 1)).others _ _).sweep
      ((sound.holds id (· - 1)).quiet (.pending _ _ _ _))
  | settle contextual =>
    have settles := queued.settles sound (F.withContextual contextual)
    exact settles.after (fun _ _ held => held) fun _ _ held => held
  | build id => cases plain
  | invalidate id => cases plain
  | takePrevious id => cases plain

end EntityGraph.Graph
