import EntityGraph.Proofs.Graph.Build
import EntityGraph.Proofs.Graph.Touch

/-! What a node stands for: the record in which every link is replaced by what its target stands for. -/

namespace EntityGraph.Graph

open Relation

variable {g : Graph} {id : NodeId} {F : Formulas} {r : Record}

/-- A node unfolds to a record: its fields, with every link replaced by what its target unfolds to, and with the pure
derivations run at every level. -/
inductive Unfolds (F : Formulas) (g : Graph) : NodeId → Record → Prop where
  | intro {id : NodeId} {n : Node} (records : NodeId → Record) (live : g.node? id = some n)
      (children : ∀ c ∈ n.links, Unfolds F g c (records c)) :
      Unfolds F g id (Stored.expandRecord F records n.content)

theorem Unfolds.unique {r' : Record} (first : Unfolds F g id r) (second : Unfolds F g id r') : r = r' := by
  induction first generalizing r' with
  | intro records live _ ih =>
    cases second with
    | intro records' live' children' =>
      rw [live] at live'
      cases live'
      exact Stored.expandRecord_congr rfl _ fun c link => ih c link (children' c link)

/-- Contextual formulas have no part in it. -/
theorem Unfolds.congr {F' : Formulas} (pure : F.pure = F'.pure) (unfolds : Unfolds F g id r) : Unfolds F' g id r := by
  induction unfolds with
  | @intro id n records live _ ih =>
    rw [Stored.expandRecord_congr pure n.content fun _ _ => rfl]
    exact .intro records live ih

/-- The record that a node unfolds to, if no path from it is longer than the depth. -/
def unfolded? (F : Formulas) (g : Graph) : Nat → NodeId → Option Record
  | 0, _ => none
  | depth + 1, id => (g.node? id).bind fun n =>
    if n.links.all fun c => (unfolded? F g depth c).isSome then
      some (Stored.expandRecord F (fun c => (unfolded? F g depth c).getD ⟨n.layout, []⟩) n.content)
    else none

/-- What is computed is what the node unfolds to. -/
theorem unfolds_of_unfolded? {depth : Nat} (found : g.unfolded? F depth id = some r) : Unfolds F g id r := by
  induction depth generalizing id r with
  | zero => cases found
  | succ depth ih =>
    obtain ⟨n, live, gives⟩ := Option.bind_eq_some_iff.mp found
    split at gives
    case isFalse => cases gives
    case isTrue children =>
      cases gives
      refine .intro _ live fun c link => ih ?_
      obtain ⟨child, computed⟩ := Option.isSome_iff_exists.mp (List.all_eq_true.mp children c link)
      rw [computed, Option.getD_some]

/-- No cycle of links can be reached from a node. -/
def NoCycle (g : Graph) (id : NodeId) : Prop :=
  ∀ c, ReflTransGen g.Leads id c → ¬ TransGen g.Leads c c

/-- A node that unfolds has no cycle below it. -/
theorem Unfolds.noCycle (unfolds : Unfolds F g id r) : g.NoCycle id := by
  induction unfolds with
  | @intro id n records live _ ih =>
    have links : ∀ {c}, g.Leads id c ↔ c ∈ n.links := by simp [Leads, outgoing_of_live live]
    -- A cycle below the node passes through a node that it links to, and below that one there is none.
    intro c leads cycle
    rcases leads.cases_head with rfl | ⟨d, first, further⟩
    · obtain ⟨d, first, back⟩ := TransGen.head'_iff.mp cycle
      exact ih d (links.mp first) d .refl (.tail' back first)
    · exact ih d (links.mp first) c further cycle

/-- Two graphs have the same fields in all nodes that a node leads to. -/
def SameBelow (g g' : Graph) (id : NodeId) : Prop :=
  ∀ c, ReflTransGen g.Leads id c → (g'.node? c).map Node.content = (g.node? c).map Node.content

namespace SameBelow

variable {g' : Graph} {c : NodeId}

/-- The links of a node are in its fields. -/
theorem outgoing_eq (same : (g'.node? c).map Node.content = (g.node? c).map Node.content) :
    g'.outgoing c = g.outgoing c := by
  have links : Stored.recordLinks ∘ Node.content = Node.links := by
    funext n
    simp [Node.content, Node.links, Stored.recordLinks]
  have read := congrArg (fun m => (m.map Stored.recordLinks).getD []) same
  simpa only [outgoing, Option.map_map, links] using read

section

variable (same : SameBelow g g' id)
include same

theorem below (leads : ReflTransGen g.Leads id c) : SameBelow g g' c :=
  fun d further => same d (leads.trans further)

/-- The node leads to the same nodes in both graphs. -/
theorem leads_iff (c : NodeId) : ReflTransGen g'.Leads id c ↔ ReflTransGen g.Leads id c := by
  constructor
  · intro leads
    induction leads with
    | refl => exact .refl
    | tail _ link ih => exact ih.tail (by rw [Leads, ← outgoing_eq (same _ ih)]; exact link)
  · intro leads
    induction leads with
    | refl => exact .refl
    | tail before link ih => exact ih.tail (by rw [Leads, outgoing_eq (same _ before)]; exact link)

theorem symm : SameBelow g' g id :=
  fun c leads => (same c ((same.leads_iff c).mp leads)).symm

/-- A cycle in one graph is one in the other. -/
theorem noCycle (straight : g.NoCycle id) : g'.NoCycle id := by
  intro c leads cycle
  have reached := (same.leads_iff c).mp leads
  obtain ⟨d, link, back⟩ := TransGen.head'_iff.mp cycle
  have first : g.Leads c d := by rw [Leads, ← outgoing_eq (same c reached)]; exact link
  exact straight c reached (.head' first (((same.below reached).below (.single first)).leads_iff c |>.mp back))

end

/-- The node unfolds to the same record. -/
theorem unfolds (same : SameBelow g g' id) (unfolds : Unfolds F g id r) : Unfolds F g' id r := by
  induction unfolds with
  | @intro id n records live _ ih =>
    have here := same id .refl
    rw [live, Option.map_some, Option.map_eq_some_iff] at here
    obtain ⟨n', live', content⟩ := here
    rw [← content]
    refine .intro records live' fun c link => ?_
    -- The node has the same links, and below them the graphs agree.
    have leads : g.Leads id c := by
      rw [Leads, ← outgoing_eq (same id .refl), outgoing_of_live live']
      exact link
    rw [Leads, outgoing_of_live live] at leads
    exact ih c leads (same.below (.single (by rw [Leads, outgoing_of_live live]; exact leads)))

end SameBelow

theorem SameCores.symm {g' : Graph} (same : SameCores g g') : SameCores g' g :=
  fun id => (same id).symm

theorem SameCores.keyOf {g' : Graph} (same : SameCores g g') (id : NodeId) : g'.keyOf id = g.keyOf id := by
  rw [Graph.keyOf, same.map Node.key (fun _ => rfl), Graph.keyOf]

theorem SameCores.sameBelow {g' : Graph} (same : SameCores g g') (id : NodeId) : SameBelow g g' id :=
  fun c _ => same.map Node.content (fun _ => rfl) c

/-- No cached snapshot is stale: what is cached for a node without a cycle below it is what the node unfolds to. -/
def Coherent (F : Formulas) (g : Graph) : Prop :=
  ∀ id r, g.cached? id = some r → g.NoCycle id → Unfolds F g id r

end EntityGraph.Graph
