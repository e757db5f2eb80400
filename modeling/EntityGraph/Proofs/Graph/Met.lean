import EntityGraph.Proofs.Graph.Acts
import EntityGraph.Proofs.Graph.Origins

/-! The nodes that a sweep meets: those that are queued and those that another node links to. What absorbing does takes
no node out of its way, and what it brings there it links to or unlinks. -/

namespace EntityGraph.Graph

open List

variable {g g' : Graph} {id j : NodeId} {acts : List Act} {act : Act} {n' : Node}

/-- A sweep meets the node: it is queued, or another node links to it. -/
def Met (g : Graph) (id : NodeId) : Prop :=
  id ∈ g.orphans ∨ ∃ p, p ≠ id ∧ id ∈ g.outgoing p

theorem Met.congr (met : g.Met id) (queued : id ∈ g.orphans → id ∈ g'.orphans)
    (links : ∀ p, g'.outgoing p = g.outgoing p) : g'.Met id := by
  rcases met with orphan | ⟨p, other, link⟩
  · exact Or.inl (queued orphan)
  · exact Or.inr ⟨p, other, by rw [links]; exact link⟩

theorem Met.touch (met : g.Met id) (changed : NodeId) : (g.touch changed).Met id :=
  met.congr (fun orphan => by rwa [(touch_pending g changed).1]) (Quiet.touch g changed).cores.outgoing

theorem Met.of_touch {changed : NodeId} (met : (g.touch changed).Met id) : g.Met id :=
  met.congr (fun orphan => by rwa [(touch_pending g changed).1] at orphan)
    fun p => ((Quiet.touch g changed).cores.outgoing p).symm

section tradeField

variable {n : Node} {i : Nat} {current incoming : Field Stored}

theorem orphans_tradeField :
    (g.tradeField id i current incoming).orphans = ((Stored.fieldLinks [current]).foldl (unlink id) g).orphans := by
  unfold tradeField
  rw [(pending_links id _ _).2.2, update_orphans]

theorem mem_links_of_field (here : n.fields[i]? = some current) {c : NodeId} (link : c ∈ Stored.fieldLinks [current]) :
    c ∈ n.links :=
  Stored.mem_fieldLinks_of_mem (mem_of_getElem? here) link

/-- A node that is met before a field is traded is met afterwards: if its last link is dropped, it is queued. -/
theorem Met.tradeField (sound : Sound g) (live : g.node? id = some n) (here : n.fields[i]? = some current)
    (met : g.Met j) : (g.tradeField id i current incoming).Met j := by
  rcases met with orphan | ⟨p, other, link⟩
  · exact Or.inl (by rw [orphans_tradeField]; exact orphans_unlinks id g _ orphan)
  by_cases linked : ∃ p, p ≠ j ∧ j ∈ (g.tradeField id i current incoming).outgoing p
  · exact Or.inr linked
  left
  simp only [not_exists, not_and, outgoing_tradeField live i current incoming] at linked
  -- The link that was there is one of the node whose field is traded, and not one of the new fields.
  have source : p = id := by
    by_contra apart
    exact linked p other (by rw [if_neg apart]; exact link)
  subst source
  have gone := linked p other
  rw [if_pos rfl, ← count_eq_zero] at gone
  have traded := Stored.count_fieldLinks_set here incoming j
  have before := count_pos_iff.mpr link
  rw [outgoing_of_live live, Node.links] at before
  have dropped : j ∈ Stored.fieldLinks [current] := by
    rw [← count_pos_iff]
    omega
  -- After dropping them no count of another node is left.
  -- So dropping the links of the field queues it, provided it is live.
  obtain ⟨m, found⟩ := contains_iff.mp (sound.closed p j link)
  obtain ⟨m', found', -⟩ := (Framed.foldl (Framed.unlink p) g (Stored.fieldLinks [current])).cores.exists_live found
  have counts := sound.counted.unlinks p (Stored.fieldLinks [current]) j m' found'
  have alone : m'.isUnreferenced j = true := by
    refine (counts.isUnreferenced j).mpr fun q apart => ?_
    by_cases same : q = p
    · simp only [same, if_true, outgoing_of_live live, Node.links]
      omega
    · have none := linked q apart
      rw [if_neg same] at none
      simp [same, count_eq_zero.mpr none]
  rw [orphans_tradeField]
  exact orphan_of_unlinks dropped found' alone

/-- A node that is met after a field is traded was met before, or the new field links to it, or it is the node itself
and linked to itself. -/
theorem met_of_tradeField (live : g.node? id = some n) (here : n.fields[i]? = some current)
    (met : (g.tradeField id i current incoming).Met j) :
    g.Met j ∨ j ∈ Stored.fieldLinks [incoming] ∨ j = id ∧ j ∈ g.outgoing j := by
  rcases met with orphan | ⟨p, other, link⟩
  · rw [orphans_tradeField] at orphan
    rcases mem_orphans_unlinks orphan with before | dropped
    · exact Or.inl (Or.inl before)
    · -- What is queued is the target of a link that was dropped.
      have own : j ∈ g.outgoing id := by
        rw [outgoing_of_live live]
        exact mem_links_of_field here dropped
      by_cases same : j = id
      · exact Or.inr (Or.inr ⟨same, by rw [same] at own ⊢; exact own⟩)
      · exact Or.inl (Or.inr ⟨id, Ne.symm same, own⟩)
  · rw [outgoing_tradeField live] at link
    split at link
    · -- A link of the node whose field is traded is one of the new field, or it was there.
      rename_i source
      have traded := Stored.count_fieldLinks_set here incoming j
      have positive := count_pos_iff.mpr link
      by_cases new : j ∈ Stored.fieldLinks [incoming]
      · exact Or.inr (Or.inl new)
      · have none := count_eq_zero.mpr new
        refine Or.inl (Or.inr ⟨p, other, ?_⟩)
        rw [source, outgoing_of_live live, Node.links, ← count_pos_iff]
        omega
    · exact Or.inl (Or.inr ⟨p, other, link⟩)

end tradeField

/-- A node that is made changes neither the queue nor the links. -/
theorem met_made_iff {g₁ : Graph} (sound : Sound g) {layout : Layout} {key : Key} {parentRoot : Option NodeId}
    (made : g.create layout key parentRoot = (id, g₁)) (j : NodeId) :
    (touch { g₁ with created := id :: g₁.created } id).Met j ↔ g.Met j := by
  have links := sound.toArena.outgoing_create made
  have queue := (create_pending made).2.2.2.1
  constructor
  · exact fun met => met.of_touch.congr (fun orphan => queue ▸ orphan) fun p => (links p).symm
  · intro met
    have listed : ({ g₁ with created := id :: g₁.created } : Graph).Met j :=
      met.congr (fun orphan => by rw [← queue] at orphan; exact orphan) links
    exact listed.touch id

/-- A node that is met stays so, whatever is done. -/
theorem Met.does (does : Does g act g') (sound : Sound g) (met : g.Met j) : g'.Met j := by
  cases does with
  | found => exact met
  | made type fresh made => exact (met_made_iff sound made j).mpr met
  -- A write trades a field, unless that holds the same already.
  | wrote owner image set =>
    obtain ⟨n, live, -⟩ := sound.toArena.of_find? owner
    rcases of_setField live set with ⟨rfl, -⟩ | ⟨current, here, -, rfl⟩
    · exact met
    · exact (met.tradeField sound live here).touch _

/-- A node that is met afterwards was met before, or is linked to or loses its link to itself by a write. -/
theorem met_of_does (does : Does g act g') (sound : Sound g) (met : g'.Met j) :
    g.Met j ∨ ∃ w, act = .write w ∧
      ((∃ incoming, w.image? g.find? = some incoming ∧ j ∈ Stored.fieldLinks [incoming]) ∨
        g.find? w.key = some j ∧ j ∈ g.outgoing j) := by
  cases does with
  | found => exact Or.inl met
  | made type fresh made => exact Or.inl ((met_made_iff sound made j).mp met)
  | @wrote w id incoming g' owner image set =>
    obtain ⟨n, live, -⟩ := sound.toArena.of_find? owner
    rcases of_setField live set with ⟨rfl, -⟩ | ⟨current, here, -, rfl⟩
    · exact Or.inl met
    · rcases met_of_tradeField live here met.of_touch with before | new | ⟨rfl, own⟩
      · exact Or.inl before
      · exact Or.inr ⟨w, rfl, Or.inl ⟨incoming, image, new⟩⟩
      · exact Or.inr ⟨w, rfl, Or.inr ⟨owner, own⟩⟩

theorem Met.performs (performs : Performs acts g g') (sound : Sound g) (met : g.Met j) : g'.Met j := by
  induction performs with
  | nil => exact met
  | cons does _ ih => exact ih ((Performs.single does).sound sound).1 (met.does does sound)

/-- New nodes are listed, and stay so; nothing else is listed. -/
theorem Performs.created (performs : Performs acts g g') (sound : Sound g) :
    (∀ j ∈ g.created, j ∈ g'.created) ∧ (∀ j, g.node? j = none → g'.contains j = true → j ∈ g'.created) ∧
      ∀ j ∈ g'.created, j ∈ g.created ∨ g.node? j = none := by
  induction performs with
  | nil g =>
    refine ⟨fun _ member => member, fun j dead live => ?_, fun _ => Or.inl⟩
    rw [contains, dead] at live
    cases live
  | @cons act acts g g₁ g' does _ ih =>
    obtain ⟨sound₁, grows, -⟩ := (Performs.single does).sound sound
    obtain ⟨listed, new, only⟩ := does.created sound
    obtain ⟨listed', new', only'⟩ := ih sound₁
    refine ⟨fun j member => listed' j (listed j member), fun j dead live => ?_, fun j member => ?_⟩
    · -- The node is made by the first act or later.
      cases first : g₁.node? j with
      | none => exact new' j first live
      | some n => exact listed' j (new j dead (contains_iff.mpr ⟨n, first⟩))
    · rcases only' j member with before | dead
      · exact only j before
      · -- Nodes do not go, so one that was not there after the first act was not there before it.
        refine Or.inr (Option.eq_none_iff_forall_ne_some.mpr fun n live => ?_)
        obtain ⟨n₁, live₁, -⟩ := grows.live j n live
        rw [dead] at live₁
        cases live₁

/-- New nodes are not held. -/
theorem Performs.unheld (performs : Performs acts g g') (sound : Sound g) (dead : g.node? j = none)
    (live : g'.node? j = some n') : n'.holds = 0 := by
  induction performs with
  | nil =>
    rw [dead] at live
    cases live
  | @cons act acts g g₁ g' does others ih =>
    have sound₁ := ((Performs.single does).sound sound).1
    cases first : g₁.node? j with
    | none => exact ih sound₁ first live
    | some n₁ =>
      -- It is made by the first act, and holds stay from then on.
      obtain ⟨n₂, live₂, stays⟩ := (others.sound sound₁).2.1.live j n₁ first
      rw [live] at live₂
      cases live₂
      obtain ⟨n, origin, same⟩ := does.origin sound first
      rw [stays.holds, (same_of_lone same).2.2.2]
      cases origin with
      | kept there => rw [dead] at there; cases there
      | made => rfl
      | wrote _ there => rw [dead] at there; cases there

theorem Swept.outgoing (swept : Swept g g') (kept : ¬ g.Doomed id) : g'.outgoing id = g.outgoing id := by
  have links : Node.links ∘ Node.lone = Node.links := rfl
  have read := congrArg (fun m => (m.map Node.links).getD []) (swept.kept id kept)
  simpa only [Graph.outgoing, Option.map_map, links] using read

/-- A node that a sweep leaves is found under its key. -/
theorem Swept.find? (swept : Swept g g') (kept : ¬ g.Doomed id) {n : Node} (live : g.node? id = some n) :
    g'.find? n.key = some id := by
  have lone := swept.kept id kept
  rw [live, Option.map_some, Option.map_eq_some_iff] at lone
  obtain ⟨n', live', same⟩ := lone
  have key : n'.key = n.key := by simpa [Node.lone] using congrArg Node.key same
  rw [← key]
  exact swept.sound.toArena.find? live'

/-- A node that is not held and that a sweep meets is left only if another node that is left links to it. -/
theorem Swept.linked (swept : Swept g g') (live : g'.node? id = some n') (unheld : n'.holds = 0)
    (met : g.Met id) : ∃ p, p ≠ id ∧ id ∈ g'.outgoing p := by
  have kept := ((swept.contains_iff id).mp (Graph.contains_iff.mpr ⟨n', live⟩)).2
  have lone := swept.kept id kept
  rw [live, Option.map_some, eq_comm, Option.map_eq_some_iff] at lone
  obtain ⟨n, before, same⟩ := lone
  have holds : n.holds = n'.holds := by simpa [Node.lone] using congrArg Node.holds same
  by_contra none
  -- Otherwise all nodes that link to it are doomed, and so is the node.
  refine kept (.intro before (holds.trans unheld) met fun p other link => ?_)
  by_contra left
  exact none ⟨p, other, by rw [swept.outgoing left]; exact link⟩

end EntityGraph.Graph
