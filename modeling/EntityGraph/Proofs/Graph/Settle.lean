import EntityGraph.Proofs.Graph.Build
import EntityGraph.Proofs.Graph.Traces

/-! What the rounds of settling ask for in a sound graph are fields of live nodes. -/

namespace EntityGraph.Graph

open List

open Step

variable {g : Graph}

theorem Quiet.takePrevious (g : Graph) (id : NodeId) : Quiet g (g.takePrevious id).2 :=
  .update g id (fun _ => rfl) (fun _ => rfl)

/-- What a changed node asks for are fields of live nodes. -/
theorem Sound.tasksOf_ok (sound : Sound g) (diff : Diff) {c : Changed}
    (live : g.contains c.id = true) : ∃ ts, g.tasksOf diff c = .ok ts ∧ AllLive g (ts.map Task.id) := by
  obtain ⟨n, found⟩ := contains_iff.mp live
  refine ⟨_, by simp only [tasksOf, node, found]; rfl, fun j member => ?_⟩
  obtain ⟨t, asked, rfl⟩ := mem_map.mp member
  -- A task comes from a rule, or from a contextual field that has no value yet.
  rcases mem_append.mp asked with reaction | missing
  · obtain ⟨r, -, asked⟩ := mem_flatMap.mp reaction
    cases r with
    | own type field =>
      simp only [reactionTasks] at asked
      split at asked
      · obtain ⟨i, -, rfl⟩ := mem_map.mp asked
        exact live
      · cases asked
    | broadcast type field =>
      simp only [reactionTasks] at asked
      split at asked
      · -- A broadcast reaches the nodes of a type, which are live.
        obtain ⟨j, listed, rfl⟩ := mem_map.mp asked
        obtain ⟨m, there, -⟩ := (sound.typed type j).mp listed
        exact contains_iff.mpr ⟨m, there⟩
      · cases asked
  · obtain ⟨i, -, rfl⟩ := mem_map.mp missing
    exact live

/-- What all changed nodes ask for are fields of live nodes. -/
theorem Sound.tasks_ok (sound : Sound g) (diff : Diff) {changed : List Changed}
    (live : AllLive g (changed.map Changed.id)) : ∃ ts, g.tasks diff changed = .ok ts ∧ AllLive g (ts.map Task.id) := by
  -- The tasks of the nodes are collected first, in any order.
  have each : ∃ tss, changed.mapM (g.tasksOf diff) = .ok tss ∧ AllLive g (tss.flatten.map Task.id) := by
    induction changed with
    | nil => exact ⟨[], rfl, by simp [AllLive]⟩
    | cons c rest ih =>
      obtain ⟨ts, asked, live₁⟩ := sound.tasksOf_ok diff (live c.id (by simp))
      obtain ⟨tss, others, live₂⟩ := ih fun j member => live j (by
        rw [map_cons]
        exact mem_cons_of_mem _ member)
      refine ⟨ts :: tss, by rw [mapM_cons, asked, others]; rfl, fun j member => ?_⟩
      rw [flatten_cons, map_append, mem_append] at member
      exact member.elim (live₁ j) (live₂ j)
  obtain ⟨tss, asked, there⟩ := each
  refine ⟨Ordered.ofList Task.lt tss.flatten, by rw [tasks, asked]; rfl, fun j member => ?_⟩
  obtain ⟨t, listed, rfl⟩ := mem_map.mp member
  exact there t.id (mem_map_of_mem (Ordered.of_mem_ofList listed))

end EntityGraph.Graph
