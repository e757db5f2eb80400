import EntityGraph.Graph.Absorb
import EntityGraph.Proofs.Except
import EntityGraph.Proofs.Graph.Sweep
import Mathlib.Logic.Relation

/-! Absorbing records: whether it succeeds or fails, it makes nodes and replaces fields by ones whose links lead to
live nodes, and does nothing else before the final sweep. -/

namespace EntityGraph

variable {e : GraphError}

/-- The error refuses a record, for its type or its depth. -/
def GraphError.Refuses : GraphError → Prop
  | .unknownType _ | .tooDeep _ => True
  | .unknownNode _ | .unsettled _ => False

/-- A record is not refused for a dead handle. -/
theorem GraphError.Refuses.ne_unknownNode (refuses : e.Refuses) (id : NodeId) : e ≠ .unknownNode id := by
  rintro rfl
  exact refuses

namespace Graph

variable {g' : Graph}

namespace Step

/-- How a step ends: with a result or with an error, each time with a graph. -/
def Ends {α : Type} (m : Step α) (g : Graph) (done : α → Graph → Prop) (failed : GraphError → Graph → Prop) : Prop :=
  match m g with
  | .ok a g' => done a g'
  | .error e g' => failed e g'

section rules

variable {α β : Type} {g : Graph} {failed : GraphError → Graph → Prop} {done : α → Graph → Prop} {m : Step α}
  {failed' : GraphError → Graph → Prop}

/-- What is shown of both ends may be weakened. -/
theorem Ends.mono {done' : α → Graph → Prop} (ends : Ends m g done failed) (onDone : ∀ a g', done a g' → done' a g')
    (onFailed : ∀ e g', failed e g' → failed' e g') : Ends m g done' failed' := by
  unfold Ends at ends ⊢
  cases result : m g with
  | ok a g' => rw [result] at ends; exact onDone a g' ends
  | error e g' => rw [result] at ends; exact onFailed e g' ends

/-- Two facts about one run hold together. -/
theorem Ends.and {done' : α → Graph → Prop} (first : Ends m g done failed) (second : Ends m g done' failed') :
    Ends m g (fun a g' => done a g' ∧ done' a g') fun e g' => failed e g' ∧ failed' e g' := by
  unfold Ends at first second ⊢
  cases result : m g with
  | ok a g' => rw [result] at first second; exact ⟨first, second⟩
  | error e g' => rw [result] at first second; exact ⟨first, second⟩

theorem Ends.pure {a : α} (holds : done a g) : Ends (pure a) g done failed :=
  holds

/-- The second step starts where the first one ends. -/
theorem Ends.bind {f : α → Step β} {done : β → Graph → Prop}
    (first : Ends m g (fun a g' => Ends (f a) g' done failed) failed) : Ends (m >>= f) g done failed := by
  unfold Ends at first ⊢
  simp only [Bind.bind, EStateM.bind]
  cases result : m g with
  | ok a g' => rw [result] at first; exact first
  | error e g' => rw [result] at first; exact first

/-- What becomes of the result leaves the graph alone. -/
theorem Ends.map {f : α → β} {done : β → Graph → Prop} (first : Ends m g (fun a g' => done (f a) g') failed) :
    Ends (f <$> m) g done failed := by
  unfold Ends at first ⊢
  simp only [Functor.map, EStateM.map]
  cases result : m g with
  | ok a g' => rw [result] at first; exact first
  | error e g' => rw [result] at first; exact first

theorem Ends.throw (holds : failed e g) : Ends (throw e) g done failed :=
  holds

/-- A question that is answered leaves the graph alone. -/
theorem Ends.ask {f : Graph → Except GraphError α} {a : α} (answer : f g = .ok a) (holds : done a g) :
    Ends (Step.ask f) g done failed := by
  simpa [Ends, Step.ask, answer] using holds

/-- A change that succeeds gives nothing but its graph. -/
theorem Ends.change {f : Graph → Except GraphError Graph} {done : Unit → Graph → Prop} (changed : f g = .ok g')
    (holds : done () g') : Ends (Step.change f) g done failed := by
  simpa [Ends, Step.change, changed] using holds

theorem Ends.of_ok {a : α} (ended : m g = .ok a g') (holds : done a g') : Ends m g done failed := by
  rw [Ends, ended]
  exact holds

/-- A step that never fails gives a result. -/
theorem Ends.exists_ok (ends : Ends m g done fun _ _ => False) : ∃ a g', m g = .ok a g' ∧ done a g' := by
  unfold Ends at ends
  cases result : m g with
  | ok a g' => rw [result] at ends; exact ⟨a, g', rfl, ends⟩
  | error e g' => rw [result] at ends; exact ends.elim

end rules

end Step

/-- One change that absorbing makes: a node for a new key, or a field of a live node with links to live nodes. -/
inductive Edit (g : Graph) : Graph → Prop where
  | make {layout : Layout} {key : Key} {parentRoot : Option NodeId} {id : NodeId} {g' : Graph}
      (fresh : g.find? key = none) (made : g.create layout key parentRoot = (id, g')) :
      Edit g (touch { g' with created := id :: g'.created } id)
  | put {id : NodeId} {i : Nat} {incoming : Field Stored} {g' : Graph} (live : g.contains id = true)
      (targets : ∀ c ∈ Stored.fieldLinks [incoming], g.contains c = true)
      (set : g.setField id i incoming = .ok g') : Edit g g'

/-- Changes that absorbing makes, one after the other. -/
abbrev Edits : Graph → Graph → Prop :=
  Relation.ReflTransGen Edit

/-- A single change keeps a graph sound and all handles live. -/
theorem Edit.sound {g : Graph} (edit : Edit g g') (sound : Sound g) : Sound g' ∧ Grows g g' := by
  cases edit with
  | @make _ _ _ id g' fresh made =>
    -- Behind the new node there is only the marking of changes.
    have quiet : Quiet g' (touch { g' with created := id :: g'.created } id) :=
      (Quiet.pending g' _ _ _).trans (.touch _ id)
    exact ⟨(sound.create fresh made).quiet quiet,
      (Grows.create sound.toArena made).trans (.of_framed quiet.toFramed)⟩
  | @put id i _ _ live targets set =>
    obtain ⟨g'', set', sound', grows⟩ := sound.setField live i targets
    rw [set] at set'
    cases set'
    exact ⟨sound', grows⟩

/-- Any number of edits keeps a graph sound and all handles live. -/
theorem Edits.sound {g : Graph} (edits : Edits g g') (sound : Sound g) : Sound g' ∧ Grows g g' := by
  induction edits with
  | refl => exact ⟨sound, .refl g⟩
  | tail _ edit ih =>
    obtain ⟨sound', grows'⟩ := edit.sound ih.1
    exact ⟨sound', ih.2.trans grows'⟩

/-- All the handles are live. -/
def AllLive (g : Graph) (ids : List NodeId) : Prop :=
  ∀ id ∈ ids, g.contains id = true

/-- A node that is made is found under its key. -/
theorem Sound.find?_made {g : Graph} (sound : Sound g) {layout : Layout} {key : Key} {parentRoot : Option NodeId}
    {id : NodeId} (fresh : g.find? key = none) (made : g.create layout key parentRoot = (id, g')) :
    (touch { g' with created := id :: g'.created } id).find? key = some id := by
  have sound' := ((Edit.make fresh made).sound sound).1
  have nodes := (sound.toArena.node?_create made).2 id
  rw [if_pos rfl] at nodes
  -- Marking the new node as changed keeps its key.
  obtain ⟨n, live, core⟩ := (Quiet.touch { g' with created := id :: g'.created } id).cores.exists_live nodes
  have named : n.key = key := by simpa [Node.core, Node.new] using congrArg Node.key core
  exact named ▸ sound'.toArena.find? live

end Graph

end EntityGraph
