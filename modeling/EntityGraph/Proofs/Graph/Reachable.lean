import EntityGraph.Proofs.Graph.Rounds

/-! What holds of every graph that the public operations lead to, whether they succeed or fail. -/

namespace EntityGraph

/-- The formulas with the contextual ones replaced, which may depend on more than is modelled, such as a state of their
own. -/
def Formulas.withContextual (F : Formulas) (contextual : String → Context → Field Value) : Formulas :=
  { F with contextual := contextual }

namespace Graph

open Step

variable {g : Graph} {α : Type} {m : Step α} {s : Schema}

/-- The operations that a graph offers. Each settling has contextual formulas of its own. -/
inductive Operation where
  | absorb (r : Record) (parentRoot : Option NodeId)
  | retain (id : NodeId)
  | release (id : NodeId)
  | build (id : NodeId)
  | invalidate (id : NodeId)
  | takePrevious (id : NodeId)
  | settle (contextual : String → Context → Field Value)

/-- The graph that a step leaves, whether it succeeds or fails. -/
def Step.after {α : Type} (m : Step α) (g : Graph) : Graph :=
  match m g with
  | .ok _ g' => g'
  | .error _ g' => g'

/-- The graph after an operation. -/
def Operation.apply (F : Formulas) (g : Graph) : Operation → Graph
  | .absorb r parentRoot => (Graph.absorb r parentRoot).after g
  | .retain id => (Step.change fun g => g.retain id).after g
  | .release id => (Step.change fun g => g.release id).after g
  | .build id => (Graph.build F id).after g
  | .invalidate id => (Step.change fun g => g.invalidate id).after g
  | .takePrevious id => (g.takePrevious id).2
  | .settle contextual => (Graph.settle (F.withContextual contextual)).after g

/-- The graphs that operations lead to from one without nodes. -/
inductive Reachable (F : Formulas) (s : Schema) : Graph → Prop where
  | empty (maxRounds : Nat) : Reachable F s (Graph.empty s maxRounds)
  | apply {g : Graph} (reached : Reachable F s g) (op : Operation) :
      Reachable F s (op.apply F g)

/-- What holds at both ends of a step holds of the graph that it leaves. -/
theorem Step.Ends.after {done : α → Graph → Prop} {failed : GraphError → Graph → Prop} {holds : Graph → Prop}
    (ends : Ends m g done failed) (onDone : ∀ a g', done a g' → holds g') (onFailed : ∀ e g', failed e g' → holds g') :
    holds (m.after g) := by
  unfold Ends at ends
  unfold Step.after
  cases result : m g with
  | ok a g' => rw [result] at ends; exact onDone a g' ends
  | error e g' => rw [result] at ends; exact onFailed e g' ends

theorem Step.eq_ok_of_run' {a : α} (run : m.run' g = some a) : m g = .ok a (m.after g) := by
  unfold EStateM.run' EStateM.run at run
  unfold Step.after
  cases result : m g with
  | ok b g' => rw [result] at run; cases run; rfl
  | error e g' => rw [result] at run; cases run

theorem Step.run'_of_ok {g' : Graph} {a : α} (ended : m g = .ok a g') : m.run' g = some a := by
  unfold EStateM.run' EStateM.run
  rw [ended]

/-- Why a step fails. -/
def Step.failure? {α : Type} (m : Step α) (g : Graph) : Option GraphError :=
  match m g with
  | .ok _ _ => none
  | .error e _ => some e

theorem Step.eq_error_of_failure? {e : GraphError} (failure : m.failure? g = some e) : m g = .error e (m.after g) := by
  unfold Step.failure? at failure
  unfold Step.after
  cases result : m g with
  | ok a g' => rw [result] at failure; cases failure
  | error e' g' => rw [result] at failure; cases failure; rfl

/-- A change of a live node leaves what it makes, and one that finds no live node leaves the graph as it was. -/
theorem Step.after_change {id : NodeId} {stays : Graph → Prop} {f : Graph → Graph} (same : stays g)
    (changed : g.contains id = true → stays (f g)) :
    stays ((Step.change fun g => g.node id >>= fun _ => pure (f g)).after g) := by
  unfold Step.after Step.change
  beta_reduce
  cases found : g.node? id with
  | some n =>
    rw [show g.node id = .ok n by simp [node, found]]
    exact changed (contains_iff.mpr ⟨n, found⟩)
  | none =>
    rw [show g.node id = .error (.unknownNode id) by simp [node, found]]
    exact same

namespace Operation

variable {F : Formulas} {id : NodeId} {stays : Graph → Prop}

theorem apply_retain (same : stays g)
    (held : g.contains id = true → stays (g.update id fun n => { n with holds := n.holds + 1 })) :
    stays (apply F g (.retain id)) :=
  after_change same held

/-- The node that is let go is queued, and the sweep takes it if nothing links to it. -/
theorem apply_release (same : stays g) (swept : ∀ orphans,
      stays (sweep { g.update id fun n => { n with holds := n.holds - 1 } with orphans := orphans })) :
    stays (apply F g (.release id)) :=
  after_change same fun _ => swept _

/-- However absorbing ends, acts that are read off the record are performed, and the garbage is removed. -/
theorem apply_absorb {r : Record} {parentRoot : Option NodeId} (sound : Sound g)
    (swept : ∀ done merged orphans, done <+: Acts.ofRecord g.schema r → Performs done g merged →
      stays (sweep { merged with created := [], orphans := orphans })) :
    stays (apply F g (.absorb r parentRoot)) := by
  refine (absorb_traces sound r parentRoot).after ?_ ?_
  · rintro id g' ⟨merged, performs, -, rfl⟩
    exact swept _ merged merged.orphans List.prefix_rfl performs
  · rintro e g' ⟨done, merged, first, performs, rfl⟩
    exact swept done merged _ first performs

theorem apply_invalidate (same : stays g) (touched : g.contains id = true → stays (g.touch id)) :
    stays (apply F g (.invalidate id)) :=
  after_change same touched

/-- Building a live node does not fail, and building a dead one changes nothing. -/
theorem apply_build (sound : Sound g) (same : stays g) (built : ∀ r g', Built F g id r g' → stays g') :
    stays (apply F g (.build id)) := by
  cases found : g.node? id with
  | none =>
    simp only [apply, Step.after, build_of_dead F found]
    exact same
  | some n => exact (sound.built F (contains_iff.mpr ⟨n, found⟩)).after built fun _ _ => False.elim

end Operation

/-- Changing the holds of a node keeps a graph sound. -/
theorem Sound.holds (sound : Sound g) (id : NodeId) (f : Nat → Nat) :
    Sound (g.update id fun n => { n with holds := f n.holds }) := by
  -- Neither links nor tables of parents mention holds.
  have same := map_node?_update g id (fun n => { n with holds := f n.holds }) Node.links fun _ => rfl
  have links : ∀ j, (g.update id fun n => { n with holds := f n.holds }).outgoing j = g.outgoing j :=
    fun j => by rw [outgoing, same, outgoing]
  have parents := map_node?_update g id (fun n => { n with holds := f n.holds }) Node.parents fun _ => rfl
  have live : ∀ j, (g.update id fun n => { n with holds := f n.holds }).contains j = g.contains j := by
    intro j
    simpa [contains] using congrArg Option.isSome (parents j)
  refine ⟨sound.toArena.update id (fun _ => rfl) (fun _ => rfl), ?_, fun p c link => ?_⟩
  · exact sound.counted.congr parents fun p c _ => by rw [links]
  · rw [links] at link
    rw [live]
    exact sound.closed p c link

/-- The graphs that operations lead to from one without nodes, as long as each is allowed where it is applied. -/
inductive ReachableBy (F : Formulas) (s : Schema) (allowed : Graph → Operation → Prop) : Graph → Prop where
  | empty (maxRounds : Nat) : ReachableBy F s allowed (Graph.empty s maxRounds)
  | apply {g : Graph} (reached : ReachableBy F s allowed g) (op : Operation) (ok : allowed g op) :
      ReachableBy F s allowed (op.apply F g)

theorem ReachableBy.mono {F : Formulas} {allowed allowed' : Graph → Operation → Prop}
    (reached : ReachableBy F s allowed g) (more : ∀ g op, allowed g op → allowed' g op) :
    ReachableBy F s allowed' g := by
  induction reached with
  | empty maxRounds => exact .empty maxRounds
  | apply _ op ok ih => exact .apply ih op (more _ op ok)

/-- Every operation keeps a graph sound. -/
theorem Sound.apply (sound : Sound g) (F : Formulas) (op : Operation) : Sound (op.apply F g) := by
  cases op with
  | absorb r parentRoot =>
    exact Operation.apply_absorb sound fun _ _ _ _ performs =>
      ((performs.sound sound).1.quiet (.pending _ _ _ _)).sweep.sound
  | retain id => exact Operation.apply_retain sound fun _ => sound.holds id (· + 1)
  | release id =>
    exact Operation.apply_release sound fun _ => ((sound.holds id (· - 1)).quiet (.pending _ _ _ _)).sweep.sound
  | build id => exact Operation.apply_build sound sound fun _ _ built => sound.quiet built.toQuiet
  | invalidate id => exact Operation.apply_invalidate sound fun _ => sound.quiet (.touch g id)
  | takePrevious id => exact sound.quiet (.takePrevious g id)
  | settle contextual =>
    have settles := sound.settle (F.withContextual contextual)
    exact settles.after (fun _ _ sound' => sound') fun _ _ failed => failed.1

theorem Reachable.sound {F : Formulas} (reached : Reachable F s g) : Sound g := by
  induction reached with
  | empty maxRounds => exact .empty s maxRounds
  | apply _ op ih => exact ih.apply F op

/-- In every graph that operations lead to, each live node's table of parents has exactly one entry for each node that
links to it, with the number of these links; all links and entries are about live nodes. So live nodes can always be
built, and settling never meets a dead handle. -/
theorem Reachable.links_agree {F : Formulas} {s : Schema} {g : Graph}
    (reached : Reachable F s g) :
    (∀ p c parent child, g.node? p = some parent → g.node? c = some child →
      child.parents.lookup p = if parent.links.count c = 0 then none else some (parent.links.count c)) ∧
    (∀ c child, g.node? c = some child →
      (child.parents.map Prod.fst).Nodup ∧ ∀ e ∈ child.parents, g.contains e.1 = true) ∧
    (∀ p parent, g.node? p = some parent → ∀ c ∈ parent.links, g.contains c = true) ∧
    (∀ id, g.contains id = true → ∃ r g', build F id g = .ok r g') ∧
    ∀ id g', settle F g ≠ .error (.unknownNode id) g' := by
  have sound := reached.sound
  -- The tables and the links are read off the invariant, and the runs off what it says about their ends.
  refine ⟨fun p c parent child here there => ?_, fun c child there => ⟨?_, fun e member => ?_⟩,
    fun p parent here c link => ?_, fun id live => ?_, fun id g' failed => ?_⟩
  · have entry := (sound.counted c child there).entry p
    simpa only [outgoing_of_live here] using entry
  · exact (sound.counted c child there).once
  · -- An entry stands for a link, and a dead handle has none.
    have counts := sound.counted c child there
    have found := lookup_of_mem counts.once member
    rw [counts.entry] at found
    cases live : g.node? e.1 with
    | some n => simp [contains, live]
    | none => simp [outgoing, live] at found
  · exact sound.closed p c (by rwa [outgoing_of_live here])
  · have ends := sound.build F live
    unfold Ends at ends
    cases result : build F id g with
    | ok r g' => exact ⟨r, g', rfl⟩
    | error e g' => rw [result] at ends; cases ends
  · have ends := sound.settle F
    rw [Ends, failed] at ends
    exact ends.2 id rfl

/-- Items that can link to items, one by one or in a list. -/
def chainType : TypeDecl :=
  ⟨"Item", none, [⟨"id", .text, 1, true, false, none, []⟩, ⟨"next", .record "Item", 2, false, false, none, []⟩,
    ⟨"kids", .list (.record "Item"), 3, false, false, none, []⟩]⟩

def chainDeclarations : Declarations :=
  ⟨[chainType], [], []⟩

def chainLayout : Layout :=
  chainDeclarations.layout 0 [] chainType []

def chainSchema : Schema :=
  ⟨0, [chainLayout], [], []⟩

theorem compile_chain : Schema.compile 0 chainDeclarations = .ok chainSchema := by decide +kernel

/-- Formulas where none is used. -/
def noFormulas : Formulas :=
  ⟨fun _ _ => .absent, fun _ _ => .absent⟩

def chainItem (id : String) (next kids : Field Value) : Record :=
  ⟨chainLayout, [.value (.text id), next, kids]⟩

/-- An item without links, as a value. -/
def chainEnd (id : String) : Value :=
  .record (chainItem id .absent .absent)

/-- The graph of an item that links to itself and twice to another one, which links back. -/
def loopGraph : Graph :=
  (absorb (chainItem "a" (.value (chainEnd "a"))
    (.value (.list [some (.record (chainItem "b" (.value (chainEnd "a")) .absent)), none, some (chainEnd "b")])))
    none).after (Graph.empty chainSchema defaultRounds)

/-- The graph of two items is reachable. The second one counts two links of the first, and can be built. -/
theorem links_agree_loop :
    (∃ a b, loopGraph.node? ⟨0, 0⟩ = some a ∧ loopGraph.node? ⟨1, 0⟩ = some b ∧
      a.links = [⟨0, 0⟩, ⟨1, 0⟩, ⟨1, 0⟩] ∧ b.parents.lookup ⟨0, 0⟩ = some 2) ∧
    (∃ r g', build noFormulas ⟨1, 0⟩ loopGraph = .ok r g') ∧
    ∀ id g', settle noFormulas loopGraph ≠ .error (.unknownNode id) g' := by
  have agree := Reachable.links_agree
    ((Reachable.empty defaultRounds : Reachable noFormulas chainSchema _).apply (.absorb _ none) :
      Reachable noFormulas chainSchema loopGraph)
  have first : (loopGraph.node? ⟨0, 0⟩).map Node.links = some [⟨0, 0⟩, ⟨1, 0⟩, ⟨1, 0⟩] := by decide +kernel
  have second : loopGraph.contains ⟨1, 0⟩ = true := by decide +kernel
  obtain ⟨a, here, links⟩ := Option.map_eq_some_iff.mp first
  obtain ⟨b, there⟩ := contains_iff.mp second
  refine ⟨⟨a, b, here, there, links, ?_⟩, agree.2.2.2.1 ⟨1, 0⟩ second, agree.2.2.2.2⟩
  rw [agree.1 ⟨0, 0⟩ ⟨1, 0⟩ a b here there, links]
  rfl

end Graph

end EntityGraph
