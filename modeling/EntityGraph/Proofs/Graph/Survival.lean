import EntityGraph.Proofs.Graph.Reachable

/-! Which nodes an operation keeps. -/

namespace EntityGraph.Graph

open Step

/-- What is doomed is a matter of the nodes and the orphans alone. -/
theorem Doomed.congr {g g' : Graph} (nodes : ∀ id, g'.node? id = g.node? id) (orphans : g'.orphans = g.orphans)
    {id : NodeId} (doomed : g.Doomed id) : g'.Doomed id := by
  have links : ∀ p, g'.outgoing p = g.outgoing p := fun p => by simp only [outgoing, nodes]
  induction doomed with
  | intro live unheld met _ ih =>
    refine .intro ((nodes _).trans live) unheld ?_ fun p other link => ih p other (by rwa [links] at link)
    simpa only [orphans, links] using met

/-- A record that was absorbed has its node, live and found by its key, exactly when the node is not doomed as soon as
all fields are merged: when it is held, or was not orphaned and nothing links to it, or some other node that links to
it is not doomed. -/
theorem Reachable.absorb_keeps_iff {F : Formulas} {s : Schema} {g g' : Graph}
    (reached : Reachable F s g) {r : Record} {parentRoot : Option NodeId} {id : NodeId}
    (absorbed : absorb r parentRoot g = .ok id g') :
    ∃ merged, absorbAt r parentRoot 0 g = .ok id merged ∧ merged.contains id = true ∧ merged.lookup r = some id ∧
      ((g'.contains id = true ∧ g'.lookup r = some id) ↔ ¬ merged.Doomed id) := by
  have sound := reached.sound
  have ends := absorb_ends sound r parentRoot
  rw [Ends, absorbed] at ends
  obtain ⟨merged, at_, edits, found, swept⟩ := ends
  -- Forgetting which nodes were made dooms none of them.
  have nodes : ∀ id, ({ merged with created := [] } : Graph).node? id = merged.node? id := fun _ => rfl
  have same : ({ merged with created := [] } : Graph).Doomed id ↔ merged.Doomed id :=
    ⟨.congr (fun id => (nodes id).symm) rfl, .congr nodes rfl⟩
  obtain ⟨n, live, key⟩ := (edits.sound sound).1.toArena.of_find? found
  -- The sweep leaves exactly what is not doomed.
  have left := swept.contains_iff id
  rw [same] at left
  refine ⟨merged, at_, contains_iff.mpr ⟨n, live⟩, found, fun kept => (left.mp kept.1).2, fun kept => ?_⟩
  have remains := left.mpr ⟨contains_iff.mpr ⟨n, live⟩, kept⟩
  refine ⟨remains, ?_⟩
  -- The node that is left has its key, and the index has it under that key.
  have lone := swept.kept id (mt same.mp kept)
  obtain ⟨n', live'⟩ := contains_iff.mp remains
  have key' : n'.key = n.key := by
    rw [live'] at lone
    have read : some n'.lone = some n.lone := lone.trans (congrArg (Option.map Node.lone) live)
    simpa [Node.lone] using congrArg Node.key (Option.some.inj read)
  rw [lookup, ← key, ← key']
  exact swept.sound.toArena.find? live'

/-- The graph of one item that links to itself. -/
def selfLinked : Graph :=
  (absorb (chainItem "a" (.value (chainEnd "a")) .absent) none).after (Graph.empty chainSchema defaultRounds)

theorem reachable_selfLinked : Reachable noFormulas chainSchema selfLinked :=
  (Reachable.empty defaultRounds).apply (.absorb _ none)

theorem absorb_selfLinked : ∃ g', absorb (chainItem "a" .null .absent) none selfLinked = .ok ⟨0, 0⟩ g' ∧
    g'.contains ⟨0, 0⟩ = false := by
  have run : (absorb (chainItem "a" .null .absent) none).run' selfLinked = some ⟨0, 0⟩ := by decide +kernel
  exact ⟨_, eq_ok_of_run' run, by decide +kernel⟩

/-- An item that links to itself is doomed once that link is taken away. -/
theorem absorb_keeps_iff_selfLinked : ∃ merged,
    absorbAt (chainItem "a" .null .absent) none 0 selfLinked = .ok ⟨0, 0⟩ merged ∧ merged.Doomed ⟨0, 0⟩ := by
  obtain ⟨g', absorbed, dead⟩ := absorb_selfLinked
  obtain ⟨merged, at_, -, -, exact_⟩ := Reachable.absorb_keeps_iff reachable_selfLinked absorbed
  refine ⟨merged, at_, ?_⟩
  by_contra kept
  have live := (exact_.mpr kept).1
  rw [dead] at live
  cases live

/-- A successful absorption does not always leave the node of its record. -/
theorem not_absorb_keeps : ¬ ∀ (serial : Nat) (d : Declarations) (s : Schema) (F : Formulas)
    (g g' : Graph) (r : Record) (parentRoot : Option NodeId) (id : NodeId),
    Schema.compile serial d = .ok s → Reachable F s g →
    absorb r parentRoot g = .ok id g' → g'.contains id = true ∧ g'.lookup r = some id := by
  intro keeps
  obtain ⟨g', absorbed, dead⟩ := absorb_selfLinked
  have live := (keeps 0 chainDeclarations chainSchema noFormulas selfLinked g' _ none ⟨0, 0⟩ compile_chain
    reachable_selfLinked absorbed).1
  rw [dead] at live
  cases live

end EntityGraph.Graph
