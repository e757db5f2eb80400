import EntityGraph.Proofs.Graph.Sweep
import EntityGraph.Proofs.Reach
import Mathlib.Data.List.Perm.Subperm

/-! Marking changes: the nodes that lose their snapshots are exactly those that lead to the change through links. -/

namespace EntityGraph.Graph

open List

open Relation

variable {g : Graph} {p c : NodeId} {j : NodeId}

/-- A node links to another. -/
def Leads (g : Graph) (p c : NodeId) : Prop :=
  c ∈ g.outgoing p

/-- What links to something is live. -/
theorem Leads.live (leads : g.Leads p c) : g.contains p = true := by
  cases found : g.node? p with
  | some n => exact contains_iff.mpr ⟨n, found⟩
  | none => simp [Leads, outgoing, found] at leads

theorem live_of_leads (leads : ReflTransGen g.Leads p c) (live : g.contains c = true) : g.contains p = true := by
  rcases leads.cases_head with rfl | ⟨q, first, -⟩
  · exact live
  · exact first.live

/-- What a live node leads to is live. -/
theorem Sound.live_of_leads (sound : Sound g) (leads : ReflTransGen g.Leads p c) (live : g.contains p = true) :
    g.contains c = true := by
  induction leads with
  | refl => exact live
  | tail _ link _ => exact sound.closed _ _ link

/-- The table of parents has exactly the nodes that link. -/
theorem Sound.mem_parents (sound : Sound g) : p ∈ g.parents c ↔ g.Leads p c := by
  unfold parents
  cases found : g.node? c with
  | none =>
    -- Nothing links to a handle that is dead.
    refine ⟨by simp, fun link => ?_⟩
    have live := sound.closed p c link
    simp [contains, found] at live
  | some n =>
    have counts := sound.counted c n found
    have entry : n.parents.lookup p = if (g.outgoing p).count c = 0 then none else some ((g.outgoing p).count c) :=
      counts.entry p
    simp only [Option.map_some, Option.getD_some, mem_map, Leads]
    constructor
    · rintro ⟨e, member, rfl⟩
      rw [lookup_of_mem counts.once member] at entry
      -- A count of zero is not in the table.
      by_contra none
      rw [count_eq_zero.mpr none] at entry
      cases entry
    · intro link
      rw [if_neg (by simpa [count_eq_zero] using link)] at entry
      exact ⟨_, mem_of_lookup entry, rfl⟩

/-- There are no more live handles than slots. -/
theorem length_le_slots {ids : List NodeId} (distinct : ids.Nodup) (live : ∀ id ∈ ids, g.contains id = true) :
    ids.length ≤ g.slots.length := by
  -- Live handles of one slot have the generation of the slot, so they are the same.
  have apart : (ids.map NodeId.index).Nodup := by
    refine distinct.map_on fun a first b second same => ?_
    obtain ⟨n, here⟩ := contains_iff.mp (live a first)
    obtain ⟨m, there⟩ := contains_iff.mp (live b second)
    rw [node?_eq_some_iff] at here there
    rw [same, there] at here
    by_contra other
    exact NodeId.generation_ne other same.symm (by simpa using congrArg (Option.map Slot.generation) here)
  have inside : ids.map NodeId.index ⊆ List.range g.slots.length := by
    intro i member
    obtain ⟨id, listed, rfl⟩ := mem_map.mp member
    obtain ⟨n, here⟩ := contains_iff.mp (live id listed)
    exact mem_range.mpr (List.getElem?_eq_some_iff.mp (node?_eq_some_iff.mp here)).1
  simpa using (apart.subperm inside).length_le

/-- The ancestors of a live node are the nodes that lead to it. -/
theorem Sound.mem_ancestors (sound : Sound g) {id : NodeId} (live : g.contains id = true) (j : NodeId) :
    j ∈ g.ancestors id ↔ ReflTransGen g.Leads j id := by
  -- The search goes from a node to those that link to it, against the direction of the links.
  have closed : ∀ a, g.contains a = true → ∀ b ∈ g.parents a, g.contains b = true :=
    fun a _ b parent => (sound.mem_parents.mp parent).live
  have room : ∀ path : List NodeId, path.Nodup → (∀ a ∈ path, g.contains a = true) → path.length ≤ g.slots.length :=
    fun path distinct all => length_le_slots distinct all
  have upwards : ∀ x, x ∈ Reach.visit g.parents (g.slots.length + 1) id [] ↔ ReflTransGen g.Leads x id := by
    intro x
    rw [Reach.mem_visit closed room (Nat.lt_succ_self _) live, ← reflTransGen_swap]
    simp only [sound.mem_parents]
  rw [ancestors, mem_filter, upwards]
  exact ⟨And.left, fun leads => ⟨leads, Graph.live_of_leads leads live⟩⟩

/-- Marking nodes as changed evicts their snapshots and no others. -/
theorem node?_noteChanges (g : Graph) (ids : List NodeId) (j : NodeId) :
    (ids.foldl noteChange g).node? j = if j ∈ ids then (g.node? j).map Node.evict else g.node? j := by
  induction ids generalizing g with
  | nil => simp
  | cons id rest ih =>
    -- A snapshot that is evicted a second time stays evicted.
    have twice : Node.evict ∘ Node.evict = Node.evict := by
      funext n
      simp [Node.evict]
    have first : (g.noteChange id).node? j = if j = id then (g.node? id).map Node.evict else g.node? j :=
      node?_update g id Node.evict j
    rw [foldl_cons, ih, first]
    by_cases same : j = id
    · subst same
      simp [Option.map_map, twice]
    · simp [same]

/-- Marking nodes as changed queues them. -/
theorem mem_changed_noteChanges (g : Graph) (ids : List NodeId) (j : NodeId) :
    j ∈ (ids.foldl noteChange g).changed ↔ j ∈ g.changed ∨ j ∈ ids := by
  induction ids generalizing g with
  | nil => simp
  | cons id rest ih =>
    have first : j ∈ (g.noteChange id).changed ↔ j = id ∨ j ∈ g.changed := by
      simp only [noteChange, update_changed]
      exact Ordered.mem_insert (fun _ _ => NodeId.eq_of_not_lt) j id g.changed
    rw [foldl_cons, ih, first, mem_cons]
    tauto

theorem touch_pending (g : Graph) (id : NodeId) :
    (g.touch id).orphans = g.orphans ∧ (g.touch id).created = g.created := by
  unfold touch
  generalize g.ancestors id = ids
  induction ids generalizing g with
  | nil => exact ⟨rfl, rfl⟩
  | cons id rest ih =>
    rw [foldl_cons, (ih _).1, (ih _).2]
    simp [noteChange]

section touch

variable (sound : Sound g) {id : NodeId} (live : g.contains id = true)

include sound live

theorem Sound.node?_touch_of_not (apart : ¬ ReflTransGen g.Leads j id) : (g.touch id).node? j = g.node? j := by
  rw [touch, node?_noteChanges, if_neg (mt (sound.mem_ancestors live j).mp apart)]

/-- A change queues exactly what leads to it. -/
theorem Sound.mem_changed_touch (j : NodeId) :
    j ∈ (g.touch id).changed ↔ j ∈ g.changed ∨ ReflTransGen g.Leads j id := by
  rw [touch, mem_changed_noteChanges, sound.mem_ancestors live]

end touch

section tradeField

variable {id : NodeId} (i : Nat) (current incoming : Field Stored)

theorem changed_unlinks (parent : NodeId) (g : Graph) (cs : List NodeId) :
    (cs.foldl (unlink parent) g).changed = g.changed ∧ (cs.foldl (unlink parent) g).created = g.created := by
  induction cs generalizing g with
  | nil => exact ⟨rfl, rfl⟩
  | cons child rest ih =>
    rw [foldl_cons, (ih _).1, (ih _).2, unlink_eq]
    simp

theorem pending_links (parent : NodeId) (g : Graph) (cs : List NodeId) :
    (cs.foldl (link parent) g).changed = g.changed ∧ (cs.foldl (link parent) g).created = g.created ∧
      (cs.foldl (link parent) g).orphans = g.orphans := by
  induction cs generalizing g with
  | nil => exact ⟨rfl, rfl, rfl⟩
  | cons child rest ih =>
    rw [foldl_cons, (ih _).1, (ih _).2.1, (ih _).2.2]
    simp [link]

theorem tradeField_pending : (g.tradeField id i current incoming).changed = g.changed ∧
    (g.tradeField id i current incoming).created = g.created := by
  unfold tradeField
  rw [(pending_links id _ _).1, (pending_links id _ _).2.1, update_changed, update_created,
    (changed_unlinks id g _).1, (changed_unlinks id g _).2]
  exact ⟨rfl, rfl⟩

end tradeField

/-- A sweep takes nothing off the queue of changes but nodes that it removes. -/
theorem Sound.mem_changed_sweep (sound : Sound g) (left : g.sweep.contains j = true) :
    j ∈ g.sweep.changed ↔ j ∈ g.changed := by
  -- Each node that is collected is taken off the queue; by the time the sweep ends it is not live.
  have general : ∀ (fuel : Nat) (g : Graph), Sound g → (Graph.sweepUpTo fuel g).contains j = true →
      g.contains j = true ∧ (j ∈ (Graph.sweepUpTo fuel g).changed ↔ j ∈ g.changed) := by
    intro fuel
    induction fuel with
    | zero => exact fun g _ left => ⟨left, Iff.rfl⟩
    | succ fuel ih =>
      intro g sound left
      unfold Graph.sweepUpTo at left ⊢
      split at left
      · exact ⟨left, Iff.rfl⟩
      · rename_i id rest first
        obtain ⟨garbage, -⟩ := orphans_split first
        have queued : Sound { g with orphans := rest } := sound.quiet (.pending g _ _ _)
        have garbage' : isGarbage { g with orphans := rest } id = true := garbage
        obtain ⟨n, live, -⟩ := queued.isGarbage_iff.mp garbage'
        obtain ⟨left₁, same⟩ := ih _ (queued.collect garbage').sound left
        obtain ⟨other, left₂⟩ := (contains_collect live j).mp left₁
        refine ⟨left₂, same.trans ?_⟩
        rw [collect_eq live, (changed_unlinks id _ _).1]
        simp [remove, other]
  exact (general g.liveCount g sound left).2

end EntityGraph.Graph
