import EntityGraph.Proofs.Graph.Sound
import Mathlib.Data.List.Induction
import Mathlib.Data.List.TakeWhile

/-! Sweeping: which nodes the orphans take with them, and that a sweep removes exactly these. -/

namespace EntityGraph.Graph

open List

variable {g : Graph} {id : NodeId} {parent : NodeId} {cs rest : List NodeId}

/-- The nodes that the orphans take with them. A doomed node is not held, it lost a link or another node links to it,
and all other nodes that link to it are doomed. -/
inductive Doomed (g : Graph) : NodeId → Prop where
  | intro {id : NodeId} {n : Node} (live : g.node? id = some n) (unheld : n.holds = 0)
      (met : id ∈ g.orphans ∨ ∃ p, p ≠ id ∧ id ∈ g.outgoing p)
      (parents : ∀ p, p ≠ id → id ∈ g.outgoing p → g.Doomed p) : g.Doomed id

theorem Sound.isGarbage_iff (sound : Sound g) :
    g.isGarbage id = true ↔ ∃ n, g.node? id = some n ∧ n.holds = 0 ∧ ∀ p, p ≠ id → id ∉ g.outgoing p := by
  unfold isGarbage
  cases found : g.node? id with
  | none => simp
  | some n =>
    have alone := (sound.counted id n found).isUnreferenced id
    simp only [count_eq_zero] at alone
    simp [alone]

theorem Doomed.of_garbage (sound : Sound g) (orphan : id ∈ g.orphans) (garbage : g.isGarbage id = true) :
    g.Doomed id := by
  obtain ⟨n, live, unheld, alone⟩ := sound.isGarbage_iff.mp garbage
  exact .intro live unheld (Or.inl orphan) fun p other link => absurd link (alone p other)

/-- Without garbage among the orphans nothing is doomed. -/
theorem not_doomed (sound : Sound g) (clean : ∀ id ∈ g.orphans, g.isGarbage id = false) (id : NodeId) :
    ¬ g.Doomed id := by
  intro doomed
  induction doomed with
  | intro live unheld met _ ih =>
    -- Its parents are not doomed, so there are none, and it is garbage itself.
    rcases met with orphan | ⟨p, other, link⟩
    · have garbage := sound.isGarbage_iff.mpr ⟨_, live, unheld, fun p other link => ih p other link⟩
      rw [clean _ orphan] at garbage
      cases garbage
    · exact ih p other link

/-- Dropping links queues targets of these links only. -/
theorem mem_orphans_unlinks (orphan : id ∈ (cs.foldl (unlink parent) g).orphans) : id ∈ g.orphans ∨ id ∈ cs := by
  induction cs generalizing g with
  | nil => exact Or.inl orphan
  | cons child rest ih =>
    rcases ih orphan with before | later
    · -- The first link queues its own target or nothing.
      rw [unlink_eq] at before
      simp only at before
      split at before
      · rcases mem_cons.mp before with rfl | before
        · exact Or.inr mem_cons_self
        · exact Or.inl before
      · exact Or.inl before
    · exact Or.inr (.tail _ later)

theorem orphans_unlinks (parent : NodeId) (g : Graph) (cs : List NodeId) (orphan : id ∈ g.orphans) :
    id ∈ (cs.foldl (unlink parent) g).orphans := by
  induction cs generalizing g with
  | nil => exact orphan
  | cons child rest ih =>
    apply ih
    rw [unlink_eq]
    simp only
    split
    · exact mem_cons_of_mem _ orphan
    · exact orphan

/-- A target that nothing else links to in the end is queued. -/
theorem orphan_of_unlinks {n : Node} (target : id ∈ cs) (live : (cs.foldl (unlink parent) g).node? id = some n)
    (alone : n.isUnreferenced id = true) : id ∈ (cs.foldl (unlink parent) g).orphans := by
  -- The last of its links to be dropped finds it as it is in the end.
  induction cs using List.reverseRecOn with
  | nil => simp at target
  | append_singleton rest child ih =>
    rw [foldl_append, foldl_cons, foldl_nil] at live ⊢
    rw [node?_unlink] at live
    split at live
    · rename_i last
      subst last
      obtain ⟨m, found, rfl⟩ := Option.map_eq_some_iff.mp live
      simp [unlink_eq, orphaned, found, alone]
    · -- The last link leads elsewhere, so the earlier ones queued it.
      rename_i other
      have earlier : id ∈ rest := by simpa [other] using target
      have queued := ih earlier live
      rw [unlink_eq]
      simp only
      split
      · exact mem_cons_of_mem _ queued
      · exact queued

/-- One node is removed: nothing else changes but tables of parents and the queue of orphans, which gets exactly those
targets of the node's links that nothing else links to. -/
structure Collected (g : Graph) (id : NodeId) (g' : Graph) : Prop where
  sound : Sound g'
  nodes : ∀ j, (g'.node? j).map Node.lone = if j = id then none else (g.node? j).map Node.lone
  queued : ∀ j, j ∈ g.orphans → j ∈ g'.orphans
  targets : ∀ j, j ∈ g'.orphans → j ∈ g.orphans ∨ (j ≠ id ∧ j ∈ g.outgoing id)
  orphaned : ∀ j, j ≠ id → j ∈ g.outgoing id → (∀ p, p ≠ j → j ∉ g'.outgoing p) → j ∈ g'.orphans
  liveCount : g'.liveCount + 1 = g.liveCount
  schema : g'.schema = g.schema
  maxRounds : g'.maxRounds = g.maxRounds

namespace Collected

variable {g' : Graph} {j : NodeId}

/-- A removed node links to nothing, and the others link as before. -/
theorem outgoing (collected : Collected g id g') (p : NodeId) :
    g'.outgoing p = if p = id then [] else g.outgoing p := by
  have links : Node.links ∘ Node.lone = Node.links := rfl
  have read := congrArg (fun m => (m.map Node.links).getD []) (collected.nodes p)
  split
  · rename_i same
    simpa only [Graph.outgoing, same, if_true, Option.map_map, links, Option.map_none, Option.getD_none] using read
  · rename_i other
    simpa only [Graph.outgoing, other, if_false, Option.map_map, links] using read

theorem exists_live (collected : Collected g id g') {n : Node} (live : g'.node? j = some n) :
    j ≠ id ∧ ∃ m, g.node? j = some m ∧ m.lone = n.lone := by
  have read := collected.nodes j
  rw [live] at read
  split at read
  · cases read
  · rename_i other
    exact ⟨other, Option.map_eq_some_iff.mp read.symm⟩

theorem exists_left (collected : Collected g id g') (other : j ≠ id) {n : Node}
    (live : g.node? j = some n) : ∃ m, g'.node? j = some m ∧ m.lone = n.lone := by
  have read := collected.nodes j
  rw [if_neg other, live] at read
  exact Option.map_eq_some_iff.mp read

end Collected

section collect

variable {n : Node} (live : g.node? id = some n)

include live

theorem collect_eq : g.collect id = (n.links.filter (· != id)).foldl (unlink id) (g.remove id n) := by
  unfold Graph.collect
  rw [live]

theorem framed_collect : Framed (g.remove id n) (g.collect id) := by
  rw [collect_eq live]
  exact .foldl (.unlink id) _ _

theorem contains_collect (j : NodeId) : (g.collect id).contains j = true ↔ j ≠ id ∧ g.contains j = true := by
  rw [(framed_collect live).cores.contains, contains, node?_remove live]
  by_cases same : j = id
  · simp [same]
  · simp [same, contains]

theorem outgoing_collect (p : NodeId) : (g.collect id).outgoing p = if p = id then [] else g.outgoing p := by
  rw [(framed_collect live).cores.outgoing]
  simp only [outgoing, node?_remove live]
  split <;> rfl

/-- The counts go down by the links of the removed node. -/
theorem Sound.counted_collect (sound : Sound g) :
    Counted (g.collect id) fun p c => ((g.collect id).outgoing p).count c := by
  have remaining : Counted (g.remove id n) fun p c => (g.outgoing p).count c := by
    intro c m found
    rw [node?_remove live] at found
    split at found
    · cases found
    · exact sound.counted c m found
  have dropped := remaining.unlinks id (n.links.filter (· != id))
  rw [← collect_eq live] at dropped
  refine dropped.congr (fun _ => rfl) fun p c there => ?_
  have other : c ≠ id := ((contains_collect live c).mp there).1
  rw [outgoing_collect live]
  by_cases own : p = id
  · -- All links of the removed node are dropped, but for those to itself.
    subst own
    have whole : (n.links.filter (· != p)).count c = n.links.count c :=
      count_filter (by simpa using other)
    simp [outgoing_of_live live, whole]
  · simp [own]

/-- A node that no other one links to is removed from a sound graph. -/
theorem Sound.sound_collect (sound : Sound g) (alone : ∀ p, p ≠ id → id ∉ g.outgoing p) : Sound (g.collect id) := by
  refine ⟨(framed_collect live).arena (sound.toArena.remove live), sound.counted_collect live, fun p c link => ?_⟩
  rw [outgoing_collect live] at link
  split at link
  · cases link
  · -- No link that is left led to the removed node.
    rename_i other
    refine (contains_collect live c).mpr ⟨?_, sound.closed p c link⟩
    rintro rfl
    exact alone p other link

end collect

/-- Garbage is removed with the links that it holds, and the graph stays sound. -/
theorem Sound.collect (sound : Sound g) (garbage : g.isGarbage id = true) : Collected g id (g.collect id) := by
  obtain ⟨n, live, -, alone⟩ := sound.isGarbage_iff.mp garbage
  have framed := framed_collect live
  have sound' := sound.sound_collect live alone
  refine ⟨sound', fun j => ?_, fun j orphan => ?_, fun j orphan => ?_, fun j other link unreferenced => ?_, ?_, ?_, ?_⟩
  · rw [collect_eq live, lone_unlinks, node?_remove live]
    split <;> rfl
  · rw [collect_eq live]
    exact orphans_unlinks id (g.remove id n) _ orphan
  · rw [collect_eq live] at orphan
    rcases mem_orphans_unlinks orphan with before | target
    · exact Or.inl before
    · rw [mem_filter] at target
      exact Or.inr ⟨by simpa using target.2, by rw [outgoing_of_live live]; exact target.1⟩
  · -- The target is live and unreferenced in the end, so its last link queued it.
    obtain ⟨m, found⟩ := contains_iff.mp ((contains_collect live j).mpr ⟨other, sound.closed id j link⟩)
    have lonely : m.isUnreferenced j = true := by
      rw [(sound'.counted j m found).isUnreferenced]
      intro p apart
      exact count_eq_zero.mpr (unreferenced p apart)
    rw [collect_eq live] at found ⊢
    refine orphan_of_unlinks ?_ found lonely
    rw [outgoing_of_live live] at link
    simp [link, other]
  · rw [framed.liveCount]
    exact liveCount_remove live
  · rw [framed.schema]; rfl
  · rw [framed.maxRounds]; rfl

/-- The first orphan that is garbage is found after orphans that are none. -/
theorem orphans_split (first : g.orphans.dropWhile (fun id => !g.isGarbage id) = id :: rest) :
    g.isGarbage id = true ∧ ∃ passed, g.orphans = passed ++ id :: rest ∧ ∀ j ∈ passed, g.isGarbage j = false := by
  refine ⟨?_, g.orphans.takeWhile (fun id => !g.isGarbage id), ?_, fun j member => ?_⟩
  · have head := head?_dropWhile_not (fun id => !g.isGarbage id) g.orphans
    simpa [first] using head
  · rw [← first, takeWhile_append_dropWhile]
  · simpa using mem_takeWhile_imp member

/-- Removing garbage of the queue leaves the other doomed nodes to remove, if what leaves the queue besides is none. -/
theorem Collected.doomed_iff {g' : Graph} (sound : Sound g) (garbage : g.isGarbage id = true) (orphan : id ∈ g.orphans)
    (fewer : ∀ j ∈ rest, j ∈ g.orphans) (clean : ∀ j ∈ g.orphans, j ≠ id → j ∉ rest → g.isGarbage j = false)
    (collected : Collected { g with orphans := rest } id g') (j : NodeId) : g.Doomed j ↔ j = id ∨ g'.Doomed j := by
  have links := collected.outgoing
  have here : g.Doomed id := .of_garbage sound orphan garbage
  constructor
  · -- By induction on what dooms a node: the nodes that link to it are doomed after the removal too.
    intro doomed
    induction doomed with
    | @intro j n live unheld met _ ih =>
      by_cases same : j = id
      · exact Or.inl same
      right
      obtain ⟨m, live', lone⟩ := collected.exists_left same live
      have holds : m.holds = n.holds := by simpa [Node.lone] using congrArg Node.holds lone
      -- What still links to the node is not the removed one, and was doomed before.
      have parents : ∀ p, p ≠ j → j ∈ g'.outgoing p → g'.Doomed p := by
        intro p apart link
        rw [links] at link
        split at link
        · cases link
        · rename_i other
          exact (ih p apart link).resolve_left other
      refine .intro live' (holds.trans unheld) ?_ parents
      by_cases remaining : ∃ p, p ≠ j ∧ j ∈ g'.outgoing p
      · exact Or.inr remaining
      left
      have unreferenced : ∀ p, p ≠ j → j ∉ g'.outgoing p := fun p apart link => remaining ⟨p, apart, link⟩
      by_cases target : j ∈ g.outgoing id
      · -- Its last link went with the removed node.
        exact collected.orphaned j same target unreferenced
      · -- It had no links from others before, so it was queued, and as garbage it still is.
        have alone : ∀ p, p ≠ j → j ∉ g.outgoing p := by
          intro p apart link
          by_cases own : p = id
          · exact target (own ▸ link)
          · exact unreferenced p apart (by rw [links, if_neg own]; exact link)
        have orphan : j ∈ g.orphans := met.resolve_right fun linked => linked.elim fun p link => alone p link.1 link.2
        apply collected.queued
        have waste := sound.isGarbage_iff.mpr ⟨n, live, unheld, alone⟩
        by_contra passed
        rw [clean j orphan same passed] at waste
        cases waste
  · rintro (rfl | doomed)
    · exact here
    · -- The other way round, the removed node is one more doomed node that may link to it.
      induction doomed with
      | @intro j n live unheld met _ ih =>
        obtain ⟨other, m, live', lone⟩ := collected.exists_live live
        have holds : m.holds = n.holds := by simpa [Node.lone] using congrArg Node.holds lone
        refine .intro live' (holds.trans unheld) ?_ fun p apart link => ?_
        · rcases met with orphan | ⟨p, apart, link⟩
          · rcases collected.targets j orphan with before | ⟨-, target⟩
            · exact Or.inl (fewer j before)
            · exact Or.inr ⟨id, Ne.symm other, target⟩
          · rw [links] at link
            split at link
            · cases link
            · exact Or.inr ⟨p, apart, link⟩
        · by_cases own : p = id
          · exact own ▸ here
          · exact ih p apart (by rw [links, if_neg own]; exact link)

/-- A sweep removes the doomed nodes, and nothing else changes but tables of parents. -/
structure Swept (g g' : Graph) : Prop where
  sound : Sound g'
  gone : ∀ id, g.Doomed id → g'.node? id = none
  kept : ∀ id, ¬ g.Doomed id → (g'.node? id).map Node.lone = (g.node? id).map Node.lone
  orphans : g'.orphans = []
  schema : g'.schema = g.schema
  maxRounds : g'.maxRounds = g.maxRounds

/-- With enough fuel for all live nodes a sweep removes exactly the doomed ones. -/
theorem Sound.sweepUpTo (sound : Sound g) {fuel : Nat} (enough : g.liveCount ≤ fuel) : Swept g (sweepUpTo fuel g) := by
  -- Without garbage in the queue only the queue is emptied.
  have finished : ∀ g : Graph, Sound g → (∀ id, ¬ g.Doomed id) → Swept g { g with orphans := [] } :=
    fun g sound none => ⟨sound.quiet (.pending g _ _ _), fun id doomed => absurd doomed (none id), fun _ _ => rfl,
      rfl, rfl, rfl⟩
  induction fuel generalizing g with
  | zero =>
    -- There is no node left that could be doomed.
    refine finished g sound fun id doomed => ?_
    cases doomed with
    | intro live =>
      rw [node?_eq_none_of_liveCount (by omega)] at live
      cases live
  | succ fuel ih =>
    unfold Graph.sweepUpTo
    split
    · rename_i none
      refine finished g sound (not_doomed sound fun id orphan => ?_)
      simpa using dropWhile_eq_nil_iff.mp none id orphan
    · -- One doomed node is removed, and the rest of the sweep removes the others.
      rename_i id rest first
      obtain ⟨garbage, passed, queue, clean⟩ := orphans_split first
      have queued : Sound { g with orphans := rest } := sound.quiet (.pending g _ _ _)
      have collected : Collected { g with orphans := rest } id _ := queued.collect garbage
      have dropped : ∀ j ∈ g.orphans, j ≠ id → j ∉ rest → g.isGarbage j = false := by
        intro j member other later
        rw [queue] at member
        exact clean j (by simpa [other, later] using member)
      have doomed := collected.doomed_iff sound garbage (by simp [queue]) (fun j later => by simp [queue, later])
        dropped
      have smaller : (Graph.collect { g with orphans := rest } id).liveCount ≤ fuel := by
        have fewer : (Graph.collect { g with orphans := rest } id).liveCount + 1 = g.liveCount := collected.liveCount
        omega
      have swept := ih collected.sound smaller
      refine ⟨swept.sound, fun j gone => ?_, fun j kept => ?_, swept.orphans,
        swept.schema.trans collected.schema, swept.maxRounds.trans collected.maxRounds⟩
      · by_cases later : (Graph.collect { g with orphans := rest } id).Doomed j
        · exact swept.gone j later
        · -- The node removed here stays away.
          have same := ((doomed j).mp gone).resolve_right later
          have read := swept.kept j later
          rw [collected.nodes, if_pos same] at read
          simpa using read
      · rw [doomed, not_or] at kept
        rw [swept.kept j kept.2, collected.nodes, if_neg kept.1]
        rfl

theorem Sound.sweep (sound : Sound g) : Swept g g.sweep :=
  sound.sweepUpTo (Nat.le_refl _)

theorem sweep_eq_self (clear : g.orphans = []) : g.sweep = g := by
  have swept : ∀ fuel, sweepUpTo fuel g = { g with orphans := [] } := by
    intro fuel
    cases fuel with
    | zero => rfl
    | succ fuel => rw [sweepUpTo, clear]; rfl
  rw [Graph.sweep, swept, ← clear]

theorem Swept.contains_iff {g' : Graph} (swept : Swept g g') (id : NodeId) :
    g'.contains id = true ↔ g.contains id = true ∧ ¬ g.Doomed id := by
  by_cases doomed : g.Doomed id
  · simp [contains, swept.gone id doomed, doomed]
  · have read := congrArg Option.isSome (swept.kept id doomed)
    simp only [Option.isSome_map] at read
    simp [contains, read, doomed]

end EntityGraph.Graph
