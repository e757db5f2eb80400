import EntityGraph.Proofs.Graph.Coherence
import EntityGraph.Proofs.Graph.Lockstep
import EntityGraph.Proofs.Graph.Queue
import EntityGraph.Proofs.Graph.Trailing

/-! Reading leaves no trace in what settling reports, as long as it takes no snapshot of a node that leads to a cycle
and none of a new node that is changed again. -/

namespace EntityGraph.Graph

open Step

variable {g h : Graph} {id : NodeId}

/-- The result of a step, whatever graph it leaves. -/
def Step.outcome {α : Type} (m : Step α) (g : Graph) : Except GraphError α :=
  match m g with
  | .ok a _ => .ok a
  | .error e _ => .error e

/-- Nodes that are related in twin graphs make related graphs. -/
theorem Twins.paired {related : Node → Node → Prop} (twins : Twins g h)
    (each : ∀ id n m, g.node? id = some n → h.node? id = some m → n.Twin m → related n m) : Paired related g h where
  rest := twins.rest
  length := twins.length
  slots i s there := by
    obtain ⟨t, there', valid, both⟩ := twins.slots i s there
    refine ⟨t, there', valid, ?_⟩
    rcases s with ⟨generation, node⟩
    rcases t with ⟨generation', node'⟩
    simp only at valid both
    subst valid
    cases both with
    | none => exact .none
    | some twin =>
      exact .some (each ⟨i, generation'⟩ _ _ (node?_eq_some_iff.mpr there) (node?_eq_some_iff.mpr there') twin)

namespace Ahead

variable {h' : Graph} {j : NodeId} {r : Record}

theorem cached (ahead : Ahead g h) (found : g.cached? j = some r) : h.cached? j = some r ∧ h.previous? j = none := by
  obtain ⟨n, here, cached⟩ := Option.bind_eq_some_iff.mp found
  obtain ⟨m, there, same⟩ := ahead.of_live here
  simpa [cached?, previous?, there] using same.cached r cached

theorem previous (ahead : Ahead g h) (found : g.previous? j = some r) : h.previous? j = some r := by
  obtain ⟨n, here, previous⟩ := Option.bind_eq_some_iff.mp found
  obtain ⟨m, there, same⟩ := ahead.of_live here
  simpa [previous?, there] using same.previous r previous

/-- It is a matter of the snapshots of twin graphs. -/
theorem of_twins (twins : Twins g h)
    (cached : ∀ j r, g.cached? j = some r → h.cached? j = some r ∧ h.previous? j = none)
    (previous : ∀ j r, g.previous? j = some r → h.previous? j = some r) : Ahead g h := by
  refine twins.paired fun id n m here there twin => ⟨twin, fun r found => ?_, fun r found => ?_⟩
  · simpa [cached?, previous?, there] using cached id r (by rw [cached?_of_live here, found])
  · simpa [previous?, there] using previous id r (by simp [previous?, here, found])

theorem fills (ahead : Ahead g h) (fills : Fills h h') : Ahead g h' := by
  refine of_twins (ahead.twins.trans fills.twins) (fun j r found => ?_) fun j r found => ?_
  · rw [fills.previous]
    exact ⟨fills.kept j r (ahead.cached found).1, (ahead.cached found).2⟩
  · rw [fills.previous]
    exact ahead.previous found

end Ahead

theorem Queued.ahead (queued : Queued g) : Ahead g g :=
  .of_twins (.refl g) (fun _ _ found => ⟨found, queued.previous_eq_none found⟩) fun _ _ found => found

theorem Step.Locked.after {α : Type} {m : Step α} (locked : Locked m) (ahead : Ahead g h) :
    Ahead (m.after g) (m.after h) := by
  have ends := locked g h ahead
  unfold Ends at ends
  unfold Step.after
  cases result : m g with
  | ok a g' =>
    rw [result] at ends
    obtain ⟨h', done, ahead'⟩ := ends
    rw [done]
    exact ahead'
  | error e g' =>
    rw [result] at ends
    obtain ⟨h', failed, ahead'⟩ := ends
    rw [failed]
    exact ahead'

section settle

variable {F : Formulas}

theorem rounds_zero (total : Diff) (queued : g.changed.isEmpty = false) :
    rounds F 0 total g = .error (.unsettled g.maxRounds) g := by
  rw [rounds.eq_def]
  change (if g.changed.isEmpty then _ else _ : Step Diff) g = _
  rw [queued]
  rfl

theorem rounds_succ (left : Nat) (total : Diff) (queued : g.changed.isEmpty = false) :
    rounds F (left + 1) total g = (round F >>= fun diff => rounds F left (total.merge diff)) g := by
  conv_lhs => rw [rounds.eq_def]
  change (if g.changed.isEmpty then _ else _ : Step Diff) g = _
  rw [queued]
  rfl

theorem round_congr (same : derivations F h = derivations F g) : round F h = round F g := by
  rw [round_eq]
  simp only [Bind.bind, EStateM.bind, same]

/-- The first part of a round is the same in both graphs. -/
theorem Trailing.derivations_eq (trailing : Trailing F g h) (closed' : SnapshotsClosed h)
    (previous : ∀ j, h.previous? j = g.previous? j) (pending : Pending g g.changed) :
    derivations F h = derivations F g := by
  have emptied : Quiet g { g with changed := [] } := .pending g _ _ _
  have emptied' : Quiet h { h with changed := [] } := .pending h _ _ _
  have trailing₁ : Trailing F { g with changed := [] } { h with changed := [] } :=
    ⟨trailing.twins.pending rfl rfl (by rw [trailing.twins.rest]), trailing.cached, trailing.straight,
      trailing.sound.quiet emptied, trailing.sound'.quiet emptied', trailing.leafy.quiet emptied,
      trailing.coherent.congr emptied.content fun _ => rfl, trailing.coherent'.congr emptied'.content fun _ => rfl⟩
  have changed : h.changed = g.changed := by rw [trailing.twins.rest]
  have rebuilt := trailing₁.rebuild_eq closed' previous pending
  -- What follows depends on what was built, and on the graph where everything is built.
  change (Graph.rebuild F h.changed >>= _ : Step (Diff × List (Task × Field Value))) { h with changed := [] } =
    (Graph.rebuild F g.changed >>= _ : Step (Diff × List (Task × Field Value))) { g with changed := [] }
  simp only [Bind.bind, EStateM.bind, changed, rebuilt]

/-- Settling is the same in both graphs, unless it may not even start. -/
theorem Trailing.settle_eq (trailing : Trailing F g h) (closed' : SnapshotsClosed h)
    (previous : ∀ j, h.previous? j = g.previous? j) (pending : Pending g g.changed)
    (queued : g.changed.isEmpty = false) :
    settle F h = settle F g ∨
      ∃ e, settle F g = .error e g ∧ settle F h = .error e h := by
  have maxRounds : h.maxRounds = g.maxRounds := by rw [trailing.twins.rest]
  have queued' : h.changed.isEmpty = false := by
    rw [trailing.twins.rest]
    exact queued
  have start : ∀ k : Graph, settle F k = rounds F k.maxRounds Diff.empty k := fun _ => rfl
  rw [start, start, maxRounds]
  cases left : g.maxRounds with
  | zero =>
    refine Or.inr ⟨.unsettled 0, ?_, ?_⟩
    · rw [rounds_zero _ queued, left]
    · rw [rounds_zero _ queued', maxRounds, left]
  | succ left =>
    refine Or.inl ?_
    rw [rounds_succ _ _ queued, rounds_succ _ _ queued']
    simp only [Bind.bind, EStateM.bind, round_congr (trailing.derivations_eq closed' previous pending)]

end settle

/-- Reads left nothing to notice: what was built by them leads to no cycle, and nothing that was never settled was
changed after it was read. -/
structure Unnoticed (g h : Graph) : Prop where
  straight : ∀ id, g.cached? id = none → h.cached? id ≠ none → g.NoCycle id
  new : ∀ id, g.cached? id = none → g.previous? id = none → h.previous? id = none

/-- The graphs of two runs with the same changes and settles, of which the second one also reads live nodes. Settling
happens where the two graphs are related as required. -/
inductive Shadow (F : Formulas) (s : Schema) (known : Record → Prop) (allowed : Graph → Graph → Prop) :
    Graph → Graph → Prop where
  | empty (maxRounds : Nat) :
      Shadow F s known allowed (Graph.empty s maxRounds) (Graph.empty s maxRounds)
  | call {g h : Graph} (shadow : Shadow F s known allowed g h) (op : Operation) (plain : op.IsPlain)
      (conforms : Conforming F s s.declares known g op)
      (ok : ∀ contextual, op = .settle contextual → allowed g h) :
      Shadow F s known allowed (op.apply F g) (op.apply F h)
  | read {g h : Graph} (shadow : Shadow F s known allowed g h) (id : NodeId)
      (live : h.contains id = true) :
      Shadow F s known allowed g ((Operation.build id).apply F h)

/-- What holds of two such graphs. -/
structure Shadowed (F : Formulas) (s : Schema) (known : Record → Prop) (g h : Graph) : Prop where
  ahead : Ahead g h
  conformed : Conformed F s known g
  conformed' : Conformed F s known h
  queued : Queued g

namespace Shadowed

variable {serial : Nat} {d : Declarations} {F : Formulas} {s : Schema} {known : Record → Prop}

variable (shadowed : Shadowed F s known g h)
include shadowed

/-- What holds of two graphs depends on the pure formulas only. -/
theorem congr (F' : Formulas) (pure : F.pure = F'.pure) : Shadowed F' s known g h where
  ahead := shadowed.ahead
  conformed := shadowed.conformed.congr F' pure
  conformed' := shadowed.conformed'.congr F' pure
  queued := shadowed.queued

theorem trailing (unnoticed : Unnoticed g h) :
    Trailing F g h where
  twins := shadowed.ahead.twins
  cached _ _ found := (shadowed.ahead.cached found).1
  straight j extra none := unnoticed.straight j none (Option.isSome_iff_ne_none.mp extra)
  sound := shadowed.conformed.sound
  sound' := shadowed.conformed'.sound
  leafy := shadowed.conformed.typed.leafy
  coherent := shadowed.conformed.fresh.coherent
  coherent' := shadowed.conformed'.fresh.coherent

theorem previous (unnoticed : Unnoticed g h) (j : NodeId) : h.previous? j = g.previous? j := by
  cases evicted : g.previous? j with
  | some r => exact shadowed.ahead.previous evicted
  | none =>
    cases cached : g.cached? j with
    | some r => exact (shadowed.ahead.cached cached).2
    | none => exact unnoticed.new j cached evicted

/-- Settling does the same to both graphs, or nothing. -/
theorem settle_eq (unnoticed : Unnoticed g h) :
    settle F h = settle F g ∨ ∃ e, settle F g = .error e g ∧ settle F h = .error e h := by
  cases queued : g.changed.isEmpty with
  | false =>
    exact (shadowed.trailing unnoticed).settle_eq shadowed.conformed'.fresh.closed (shadowed.previous unnoticed)
      shadowed.conformed.fresh.pending queued
  | true =>
    -- Nothing is queued, so every node has its snapshot, and the graphs are one.
    refine Or.inl (congrArg _ (shadowed.ahead.twins.eq_of_same fun id n m here there => ?_))
    have cached : g.cached? id ≠ none := by
      intro lacks
      have member := shadowed.conformed.fresh.pending id (contains_iff.mpr ⟨n, here⟩) lacks
      rw [List.isEmpty_iff.mp queued] at member
      cases member
    obtain ⟨r, found⟩ := Option.ne_none_iff_exists'.mp cached
    constructor
    · rw [← cached?_of_live here, ← cached?_of_live there, found, (shadowed.ahead.cached found).1]
    · simpa [previous?, here, there] using shadowed.previous unnoticed id

/-- Every call keeps two graphs so. -/
theorem call (compiled : Schema.compile serial d = .ok s) (apart : KeysTellTypes known) {op : Operation}
    (plain : op.IsPlain) (conforms : Conforming F s s.declares known g op)
    (unnoticed : ∀ contextual, op = .settle contextual → Unnoticed g h) :
    Shadowed F s known (op.apply F g) (op.apply F h) := by
  have conformed := shadowed.conformed.apply compiled apart conforms
  have queued := shadowed.queued.apply shadowed.conformed.sound F plain
  cases op with
  | absorb r parentRoot =>
    have ok : Conforming F s s.declares known h (.absorb r parentRoot) := conforms
    exact ⟨(absorb_locked r parentRoot).after shadowed.ahead, conformed, shadowed.conformed'.apply compiled apart ok,
      queued⟩
  | retain id =>
    have ok : Conforming F s s.declares known h (.retain id) := trivial
    exact ⟨(Locked.change fun _ _ ahead => ahead.retain id).after shadowed.ahead, conformed,
      shadowed.conformed'.apply compiled apart ok, queued⟩
  | release id =>
    have ok : Conforming F s s.declares known h (.release id) := trivial
    exact ⟨(Locked.change fun _ _ ahead => ahead.release id).after shadowed.ahead, conformed,
      shadowed.conformed'.apply compiled apart ok, queued⟩
  | settle contextual =>
    have shadowed' := shadowed.congr (F.withContextual contextual) rfl
    rcases shadowed'.settle_eq (unnoticed contextual rfl) with same | ⟨e, failed, failed'⟩
    · have one : Operation.apply F h (.settle contextual) = Operation.apply F g (.settle contextual) := by
        simp only [Operation.apply, Step.after, same]
      rw [one]
      exact ⟨queued.ahead, conformed, conformed, queued⟩
    · have stays : Operation.apply F g (.settle contextual) = g := by
        simp only [Operation.apply, Step.after, failed]
      have stays' : Operation.apply F h (.settle contextual) = h := by
        simp only [Operation.apply, Step.after, failed']
      rw [stays, stays']
      exact shadowed
  | build id => cases plain
  | invalidate id => cases plain
  | takePrevious id => cases plain

/-- Every read keeps two graphs so. -/
theorem read (live : h.contains id = true) : Shadowed F s known g ((Operation.build id).apply F h) := by
  refine (shadowed.conformed'.sound.built F live).after (fun r h' built => ?_) fun _ _ => False.elim
  exact ⟨shadowed.ahead.fills built.toFills, shadowed.conformed, shadowed.conformed'.built built, shadowed.queued⟩

end Shadowed

theorem Shadow.shadowed {serial : Nat} {d : Declarations} {F : Formulas} {s : Schema}
    {known : Record → Prop} (compiled : Schema.compile serial d = .ok s) (apart : KeysTellTypes known)
    (shadow : Shadow F s known Unnoticed g h) : Shadowed F s known g h := by
  induction shadow with
  | empty maxRounds =>
    have conformed := Conformed.empty F known s maxRounds
    exact ⟨(Queued.empty s maxRounds).ahead, conformed, conformed, .empty s maxRounds⟩
  | call _ op plain conforms ok ih => exact ih.call compiled apart plain conforms ok
  | read _ id live ih => exact ih.read live

/-- Two runs with the same changes and settles, of which one also reads live nodes, settle with the same outcome: the
same changes or the same error. -/
theorem Shadow.settle_outcome {serial : Nat} {d : Declarations} {F : Formulas} {s : Schema}
    {known : Record → Prop} {g h : Graph} (compiled : Schema.compile serial d = .ok s)
    (apart : KeysTellTypes known) (shadow : Shadow F s known Unnoticed g h) (unnoticed : Unnoticed g h) :
    (settle F).outcome h = (settle F).outcome g := by
  rcases (shadow.shadowed compiled apart).settle_eq unnoticed with same | ⟨e, failed, failed'⟩
  · simp only [Step.outcome, same]
  · simp only [Step.outcome, failed, failed']

/-- The handles of all slots. -/
def handles (g : Graph) : List NodeId :=
  g.slots.zipIdx.map fun e => ⟨e.2, e.1.generation⟩

theorem mem_handles {n : Node} (live : g.node? id = some n) : id ∈ g.handles := by
  have slot := node?_eq_some_iff.mp live
  refine List.mem_map.mpr ⟨(⟨id.generation, some n⟩, id.index), ?_, rfl⟩
  rw [List.mem_zipIdx_iff_getElem?]
  exact slot

/-- Where all links lead forward, it can be computed that reads left nothing to notice. -/
theorem unnoticed_of_leadsForward (forward : g.leadsForward = true)
    (new : ∀ id ∈ h.handles, (g.previous? id).isSome = true ∨ (h.previous? id).isSome = false) : Unnoticed g h := by
  refine ⟨fun id _ _ => noCycle_of_leadsForward forward id, fun id _ none => ?_⟩
  cases evicted : h.previous? id with
  | none => rfl
  | some r =>
    obtain ⟨m, there, -⟩ := Option.bind_eq_some_iff.mp evicted
    have checked := new id (mem_handles there)
    simp [none, evicted] at checked

/-- For each change, whether the entity was there before. -/
def wereThere (d : Diff) : List Bool :=
  d.toList.map fun c => c.was.isSome

/-- The graph after an item was met. -/
def withItem (note : String) (g : Graph) : Graph :=
  (Operation.absorb (itemOf 0 false "a" note) none).apply noFormulas g

/-- The graph after its first node was read. -/
def readFirst (g : Graph) : Graph :=
  (Operation.build ⟨0, 0⟩).apply noFormulas g

/-- The graph of an item that was settled and changed. -/
def changedItem : Graph :=
  withItem "2" (settledGraph noFormulas (itemOf 0 false "a" "1"))

/-- An item that changed since it was settled is read, which builds it, and settling reports the same. -/
theorem settle_outcome_item : (readFirst changedItem).isUnbuilt ⟨0, 0⟩ = false ∧
    changedItem.isUnbuilt ⟨0, 0⟩ = true ∧
    (settle noFormulas).outcome (readFirst changedItem) = (settle noFormulas).outcome changedItem ∧
    ((settle noFormulas).outcome changedItem).toOption.map wereThere = some [true] := by
  have computed : ((readFirst changedItem).isUnbuilt ⟨0, 0⟩ = false ∧ changedItem.isUnbuilt ⟨0, 0⟩ = true ∧
      ((settle noFormulas).outcome changedItem).toOption.map wereThere = some [true]) ∧
      changedItem.leadsForward = true ∧ changedItem.contains ⟨0, 0⟩ = true ∧
      ∀ id ∈ (readFirst changedItem).handles,
        (changedItem.previous? id).isSome = true ∨ ((readFirst changedItem).previous? id).isSome = false := by
    decide +kernel
  obtain ⟨⟨unbuilt', unbuilt, reported⟩, forward, live, new⟩ := computed
  have start : Shadow noFormulas ownerSchema (Listed [itemOf 0 false "a" "1"]) Unnoticed
      (Graph.empty ownerSchema defaultRounds) (Graph.empty ownerSchema defaultRounds) := .empty defaultRounds
  -- Before the read the two graphs are one.
  have shadow := ((start.call (.absorb (itemOf 0 false "a" "1") none) trivial (by decide +kernel) (by simp)).call
    (.settle noFormulas.contextual) trivial (by decide +kernel) fun _ _ =>
      unnoticed_of_leadsForward (by decide +kernel) (by decide +kernel)).call
    (.absorb (itemOf 0 false "a" "2") none) trivial (by decide +kernel) (by simp)
  refine ⟨unbuilt', unbuilt, ?_, reported⟩
  exact (shadow.read ⟨0, 0⟩ live).settle_outcome compile_owner (keysTellTypes_listed (by decide +kernel))
    (unnoticed_of_leadsForward forward new)

/-- An item that is read while it is new, and then changed, is reported as one that was there before. -/
theorem not_settle_outcome : ¬ ∀ (serial : Nat) (d : Declarations) (s : Schema) (F : Formulas)
    (known : Record → Prop) (g h : Graph), Schema.compile serial d = .ok s → KeysTellTypes known →
    Shadow F s known (fun _ _ => True) g h →
    ((settle F).outcome h).toOption.map wereThere = ((settle F).outcome g).toOption.map wereThere := by
  intro claim
  have start : Shadow noFormulas ownerSchema (Listed [itemOf 0 false "a" "1"]) (fun _ _ => True)
      (Graph.empty ownerSchema defaultRounds) (Graph.empty ownerSchema defaultRounds) := .empty defaultRounds
  have met := start.call (.absorb (itemOf 0 false "a" "1") none) trivial (by decide +kernel) fun _ _ => trivial
  have changed := (met.read ⟨0, 0⟩ (by decide +kernel)).call (.absorb (itemOf 0 false "a" "2") none) trivial
    (by decide +kernel) fun _ _ => trivial
  have same := claim 0 ownerDeclarations ownerSchema _ _ _ _ compile_owner (keysTellTypes_listed (by decide +kernel))
    changed
  revert same
  decide +kernel

end EntityGraph.Graph
