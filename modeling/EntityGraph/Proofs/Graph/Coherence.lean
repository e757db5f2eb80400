import EntityGraph.Proofs.Graph.Typed

/-! Snapshots agree with the graph: in a run whose derivations give what their fields can hold, every node without a
cycle below it builds to what it unfolds to, and no cached snapshot is stale. -/

namespace EntityGraph.Graph

open Step

/-- A derived field may be stored: the records in it that are met are known, and its value has the shape of the field's
kind, with members for open types and records that pass a test. -/
def Conforms (s : Schema) (test : Record → Bool) (known : Record → Prop) (g : Graph)
    (e : Task × Field Value) : Prop :=
  (∀ act ∈ Acts.ofField s e.2, act.Knows known) ∧
    ∀ n ∈ g.node? e.1.id, ∀ info ∈ n.layout.fields[e.1.field]?, ∀ v ∈ e.2.value?,
      info.kind.conforms s test v = true

/-- The operations of a run that meets known records only and whose derivations conform to their fields. -/
def Conforming (F : Formulas) (s : Schema) (test : Record → Bool) (known : Record → Prop) (g : Graph) :
    Operation → Prop
  | .absorb r _ => ∀ act ∈ Acts.ofRecord s r, act.Knows known
  | .settle contextual => ∀ h ∈ roundStarts (F.withContextual contextual) g.maxRounds g,
    ∀ e ∈ derivedAt (F.withContextual contextual) h, Conforms s test known h e
  | _ => True

section decidable

variable (F : Formulas) (s : Schema) (test : Record → Bool) (known : Record → Prop) [DecidablePred known]

instance (g : Graph) (e : Task × Field Value) : Decidable (Conforms s test known g e) :=
  inferInstanceAs (Decidable (_ ∧ _))

instance (g : Graph) (op : Operation) : Decidable (Conforming F s test known g op) :=
  match op with
  | .absorb .. | .settle _ | .retain _ | .release _ | .build _ | .invalidate _ | .takePrevious _ => by
    dsimp only [Conforming]
    infer_instance

end decidable

theorem cached?_holds (g : Graph) (id : NodeId) (f : Nat → Nat) (j : NodeId) :
    (g.update id fun n => { n with holds := f n.holds }).cached? j = g.cached? j :=
  bind_node?_update g id (fun n => { n with holds := f n.holds }) Node.cached (fun _ => rfl) j

/-- What holds of every graph of such a run. -/
structure Conformed (F : Formulas) (s : Schema) (known : Record → Prop) (g : Graph) : Prop where
  schema_eq : g.schema = s
  sound : Sound g
  fresh : Fresh F g
  typed : Typed known g

namespace Conformed

variable {serial : Nat} {d : Declarations} {F : Formulas} {s : Schema} {known : Record → Prop}
  {g g' : Graph} {id : NodeId} {diff : Diff} {results : List (Task × Field Value)}

/-- Contextual formulas have no part in it. -/
theorem congr (conformed : Conformed F s known g) (F' : Formulas)
    (pure : F.pure = F'.pure) : Conformed F' s known g where
  schema_eq := conformed.schema_eq
  sound := conformed.sound
  fresh := ⟨fun id r found straight => (conformed.fresh.coherent id r found straight).congr pure,
    conformed.fresh.closed, conformed.fresh.pending⟩
  typed := conformed.typed

theorem empty (F : Formulas) (known : Record → Prop) (s : Schema) (maxRounds : Nat) :
    Conformed F s known (Graph.empty s maxRounds) where
  schema_eq := rfl
  sound := .empty s maxRounds
  fresh := ⟨fun id r found => (by cases found), fun p c built => (by cases built), fun id live => (by cases live)⟩
  typed := fun id n live => by cases live

variable (conformed : Conformed F s known g)
include conformed

/-- It is a matter of the nodes up to their parents and evicted snapshots, and of the queue of changes. -/
theorem quiet (quiet : Quiet g g') (cached : ∀ j, g'.cached? j = g.cached? j)
    (changed : ∀ j ∈ g.changed, j ∈ g'.changed) : Conformed F s known g' where
  schema_eq := quiet.schema.trans conformed.schema_eq
  sound := conformed.sound.quiet quiet
  fresh := conformed.fresh.congr quiet.content cached changed
  typed := conformed.typed.survives (.of_framed quiet.toFramed)

theorem pending (orphans created : List NodeId) :
    Conformed F s known { g with orphans := orphans, created := created } :=
  conformed.quiet (.pending g _ _ _) (fun _ => rfl) fun _ member => member

theorem performs (compiled : Schema.compile serial d = .ok s) (apart : KeysTellTypes known) {acts : List Act}
    (fits : ∀ act ∈ acts, Fits known g act) (performs : Performs acts g g') : Conformed F s known g' where
  schema_eq := (performs.sound conformed.sound).2.1.schema.trans conformed.schema_eq
  sound := (performs.sound conformed.sound).1
  fresh := conformed.fresh.edits conformed.sound (performs.edits conformed.sound)
  typed := conformed.typed.performs (by rw [conformed.schema_eq]; exact compiled) apart conformed.sound fits performs

theorem sweep : Conformed F s known g.sweep where
  schema_eq := conformed.sound.sweep.schema.trans conformed.schema_eq
  sound := conformed.sound.sweep.sound
  fresh := conformed.fresh.sweep conformed.sound
  typed := conformed.typed.survives (.of_swept conformed.sound.sweep)

theorem built {r : Record} (built : Built F g id r g') : Conformed F s known g' where
  schema_eq := built.schema.trans conformed.schema_eq
  sound := conformed.sound.quiet built.toQuiet
  fresh := conformed.fresh.built conformed.typed.leafy built
  typed := conformed.typed.survives (.of_framed built.toFramed)

/-- Holding a node or letting it go changes none of it. -/
theorem holds (id : NodeId) (f : Nat → Nat) :
    Conformed F s known (g.update id fun n => { n with holds := f n.holds }) where
  schema_eq := (update_schema g id _).trans conformed.schema_eq
  sound := conformed.sound.holds id f
  fresh := by
    refine conformed.fresh.congr (map_node?_update g id _ Node.content fun _ => rfl) (cached?_holds g id f)
      fun j member => ?_
    rw [update_changed]
    exact member
  typed := conformed.typed.survives (.of_holds g id f)

/-- Marking a live node as changed keeps snapshots right. -/
theorem touch (live : g.contains id = true) : Conformed F s known (g.touch id) := by
  have altered : Altered g id g := ⟨conformed.sound, live, fun _ _ => rfl, rfl⟩
  have quiet := Quiet.touch g id
  exact ⟨quiet.schema.trans conformed.schema_eq, conformed.sound.quiet quiet,
    ⟨altered.coherent conformed.fresh.coherent, altered.snapshotsClosed conformed.fresh.closed,
      altered.pending conformed.fresh.pending⟩,
    conformed.typed.survives (.of_framed quiet.toFramed)⟩

/-- The first part of a round keeps it. -/
theorem derived (derived : Derived F g diff results g') : Conformed F s known g' where
  schema_eq := derived.schema.trans conformed.schema_eq
  sound := conformed.sound.quiet derived.toQuiet
  fresh := derived.fresh conformed.typed.leafy conformed.fresh
  typed := conformed.typed.survives (.of_framed derived.toFramed)

/-- A result that conforms may be stored where it was derived. -/
theorem fits_results (derived : Derived F g diff results g')
    (conforms : ∀ e ∈ results, Conforms s s.declares known g e) :
    ∀ act ∈ Acts.ofResults g'.schema g'.keyOf results, Fits known g' act := by
  have schema' : g'.schema = s := derived.schema.trans conformed.schema_eq
  have sound' := conformed.sound.quiet derived.toQuiet
  intro act member
  obtain ⟨e, listed, among⟩ := List.mem_flatMap.mp member
  obtain ⟨met, shape⟩ := conforms e listed
  rcases List.mem_append.mp among with stored | written
  · exact fits_of_tidy (Acts.tidy_ofField g'.schema e.2) (by rw [schema']; exact met) act stored
  · rw [List.mem_singleton] at written
    subst written
    obtain ⟨n', live'⟩ := contains_iff.mp (derived.live e listed)
    obtain ⟨n, live, core⟩ := derived.cores.symm.exists_live live'
    have layout : n.layout = n'.layout := by simpa [Node.core] using congrArg Node.layout core
    refine Or.inr ⟨e.1.id, n', sound'.toArena.find?_keyOf (derived.live e listed), live', fun info there v same => ?_⟩
    rw [schema']
    exact shape n live info (by rw [layout]; exact there) v (by rw [show e.2 = .value v from same]; rfl)

/-- A round whose results conform keeps it. -/
theorem round (compiled : Schema.compile serial d = .ok s) (apart : KeysTellTypes known)
    (conforms : ∀ e ∈ derivedAt F g, Conforms s s.declares known g e) :
    Ends (Graph.round F) g (fun _ g' => Conformed F s known g') fun _ g' => Conformed F s known g' := by
  obtain ⟨diff, g₁, derived, -, ends⟩ := conformed.sound.round_parts F
  have conformed₁ := conformed.derived derived
  have fits := conformed.fits_results derived conforms
  refine ends.mono ?_ ?_
  · rintro _ g' ⟨-, merged, performs, rfl⟩
    exact (conformed₁.performs compiled apart fits performs).sweep
  · rintro _ g' ⟨-, done, first, performs⟩
    exact conformed₁.performs compiled apart (fun act member => fits act (first.subset member)) performs

/-- Settling keeps it, and ends with nothing queued if it succeeds. -/
theorem settles (compiled : Schema.compile serial d = .ok s) (apart : KeysTellTypes known)
    (conforms : Conforming F s s.declares known g (.settle F.contextual)) :
    Ends (Graph.settle F) g (fun _ g' => Conformed F s known g' ∧ g'.changed = [])
      fun _ g' => Conformed F s known g' := by
  have keeps := @settle_keeps F g (fun _ h => Conformed F s known h)
    (Conformed F s known) conformed (fun _ _ held => held)
    fun h member _ held => held.round compiled apart (conforms h member)
  exact keeps.mono (fun _ _ held => ⟨held.1, held.2.1⟩) fun _ _ held => held

/-- Every operation of a conforming run keeps it. -/
theorem apply (compiled : Schema.compile serial d = .ok s) (apart : KeysTellTypes known) {op : Operation}
    (conforms : Conforming F s s.declares known g op) : Conformed F s known (op.apply F g) := by
  cases op with
  | absorb r parentRoot =>
    -- What a failure leaves undone does not matter.
    have fits : ∀ act ∈ Acts.ofRecord g.schema r, Fits known g act :=
      fits_of_tidy (Acts.tidy_ofRecord g.schema r) (by rw [conformed.schema_eq]; exact conforms)
    refine Operation.apply_absorb conformed.sound fun _ _ _ first performs => ?_
    exact ((conformed.performs compiled apart (fun act member => fits act (first.subset member)) performs).pending
      _ _).sweep
  | retain id => exact Operation.apply_retain conformed fun _ => conformed.holds id (· + 1)
  | release id => exact Operation.apply_release conformed fun _ => ((conformed.holds id (· - 1)).pending _ _).sweep
  | build id => exact Operation.apply_build conformed.sound conformed fun _ _ => conformed.built
  | invalidate id => exact Operation.apply_invalidate conformed conformed.touch
  | takePrevious id =>
    refine conformed.quiet (Quiet.takePrevious g id) (cached?_takePrevious g id) fun j member => ?_
    change j ∈ (g.update id _).changed
    rw [update_changed]
    exact member
  | settle contextual =>
    -- What is pure is the same for the settling as for the rest of the run.
    have settled := (conformed.congr (F.withContextual contextual) rfl).settles compiled apart conforms
    exact (settled.after (fun _ _ held => held.1) fun _ _ held => held).congr F rfl

end Conformed

/-- Every graph of a conforming run has right snapshots and typed nodes. -/
theorem ReachableBy.conformed {serial : Nat} {d : Declarations} {s : Schema} {F : Formulas} {known : Record → Prop}
    {g : Graph} (compiled : Schema.compile serial d = .ok s) (apart : KeysTellTypes known)
    (reached : ReachableBy F s (Conforming F s s.declares known) g) : Conformed F s known g := by
  induction reached with
  | empty maxRounds => exact .empty F known s maxRounds
  | apply _ op conforms ih => exact ih.apply compiled apart conforms

/-- In a run whose derivations give values that their fields can hold, of the schema's own records, and whose keys tell
types apart: a live node without a cycle below it builds to what it unfolds to, and to nothing else; no cached snapshot
is stale; a live node without one is queued; and after settling every live node has one. -/
theorem ReachableBy.build_unfolds {serial : Nat} {d : Declarations} {s : Schema} {F : Formulas}
    {known : Record → Prop} {g : Graph} (compiled : Schema.compile serial d = .ok s) (apart : KeysTellTypes known)
    (reached : ReachableBy F s (Conforming F s s.declares known) g) :
    (∀ id, g.contains id = true → g.NoCycle id → ∃ r g', build F id g = .ok r g' ∧
      ∀ r', Unfolds F g id r' ↔ r' = r) ∧
    (∀ id r, g.cached? id = some r → g.NoCycle id → Unfolds F g id r) ∧
    (∀ id, g.contains id = true → g.cached? id = none → id ∈ g.changed) ∧
    ∀ diff g', Conforming F s s.declares known g (.settle F.contextual) →
      settle F g = .ok diff g' → ∀ id, g'.contains id = true → ∃ r, g'.cached? id = some r := by
  have conformed := reached.conformed compiled apart
  refine ⟨fun id live straight => ?_, conformed.fresh.coherent, conformed.fresh.pending,
    fun diff g' conforms settled id live => ?_⟩
  · have ends := conformed.sound.built F live
    unfold Ends at ends
    cases result : build F id g with
    | error e g' => rw [result] at ends; cases ends
    | ok r g' =>
      rw [result] at ends
      have unfolds := ends.unfolds conformed.typed.leafy conformed.fresh.coherent straight
      exact ⟨r, g', rfl, fun r' => ⟨fun other => other.unique unfolds, fun same => same ▸ unfolds⟩⟩
  · -- Settling ends with an empty queue, where nothing lacks its snapshot.
    have ends := conformed.settles compiled apart conforms
    rw [Ends, settled] at ends
    by_contra missing
    have lacks : g'.cached? id = none := by
      simpa [Option.eq_none_iff_forall_ne_some] using missing
    have queued := ends.1.fresh.pending id live lacks
    rw [ends.2] at queued
    cases queued

/-- A type with a key and a contextual field. -/
def derivedType (name field type : String) : TypeDecl :=
  ⟨name, none, [⟨"id", .text, 1, true, false, none, []⟩,
    ⟨field, .record type, 2, false, false, some (.contextual field), []⟩]⟩

/-- Parts, which are entities or not. -/
def partType (identifying : Bool) : TypeDecl :=
  ⟨"Part", none, [⟨"label", .text, 1, identifying, false, none, []⟩]⟩

/-- Items, which are known by their name or by their note. -/
def itemType (byNote : Bool) : TypeDecl :=
  ⟨"Item", none, [⟨"id", .text, 1, !byNote, false, none, []⟩, ⟨"note", .text, 2, byNote, false, none, []⟩]⟩

/-- Holders and owners have one contextual field each: a part, which is no entity, and an item, which is one. -/
def ownerDeclarations : Declarations :=
  ⟨[partType false, itemType false, derivedType "Holder" "part" "Part", derivedType "Owner" "item" "Item"], [], []⟩

def partLayout (serial : Nat) (identifying : Bool) : Layout :=
  ownerDeclarations.layout serial [] (partType identifying) []

def itemLayout (serial : Nat) (byNote : Bool) : Layout :=
  ownerDeclarations.layout serial [] (itemType byNote) []

/-- The layout of a type with a contextual field. -/
def derivedLayout (name field type : String) : Layout :=
  ownerDeclarations.layout 0 [] (derivedType name field type) []

def ownerSchema : Schema :=
  ⟨0, [partLayout 0 false, itemLayout 0 false, derivedLayout "Holder" "part" "Part",
    derivedLayout "Owner" "item" "Item"], [], []⟩

theorem compile_owner : Schema.compile 0 ownerDeclarations = .ok ownerSchema := by decide +kernel

/-- Formulas that derive the same record everywhere. -/
def giving (r : Record) : Formulas :=
  ⟨fun _ _ => .absent, fun _ _ => .value (.record r)⟩

/-- A part of a schema with the given serial, which is an entity there or not. -/
def partOf (serial : Nat) (identifying : Bool) (label : String) : Record :=
  ⟨partLayout serial identifying, [.value (.text label)]⟩

/-- An item of a schema with the given serial, known by its name or by its note there. -/
def itemOf (serial : Nat) (byNote : Bool) (id note : String) : Record :=
  ⟨itemLayout serial byNote, [.value (.text id), .value (.text note)]⟩

/-- A holder without its part. -/
def newHolder : Record :=
  ⟨derivedLayout "Holder" "part" "Part", [.value (.text "h"), .absent]⟩

/-- An owner without its item. -/
def newOwner : Record :=
  ⟨derivedLayout "Owner" "item" "Item", [.value (.text "o"), .absent]⟩

/-- The graph after a record was met and everything was settled. -/
def settledGraph (F : Formulas) (r : Record) : Graph :=
  (settle F).after ((absorb r none).after (Graph.empty ownerSchema defaultRounds))

/-- The text at the end of a path of two fields. -/
def textAt (r : Record) (outer inner : String) : Option String :=
  ((r.field outer).value?.bind Value.record?).bind fun child => (child.field inner).value?.bind Value.text?

/-- Records with the key and the type of a listed one. -/
def Listed (records : List Record) (r : Record) : Prop :=
  ∃ a ∈ records, a.key = r.key ∧ a.typeName = r.typeName

instance (records : List Record) : DecidablePred (Listed records) :=
  fun r => inferInstanceAs (Decidable (∃ a ∈ records, a.key = r.key ∧ a.typeName = r.typeName))

theorem keysTellTypes_listed {records : List Record}
    (apart : ∀ a ∈ records, ∀ b ∈ records, a.key = b.key → a.typeName = b.typeName) :
    KeysTellTypes (Listed records) := by
  rintro a b ⟨a', here, keyₐ, nameₐ⟩ ⟨b', there, keyᵦ, nameᵦ⟩ same
  rw [← nameₐ, ← nameᵦ]
  exact apart a' here b' there (by rw [keyₐ, keyᵦ, same])

/-- All links lead from earlier slots to later ones. -/
def leadsForward (g : Graph) : Bool :=
  (List.range g.slots.length).all fun i =>
    (g.slots[i]?.bind Slot.node).all fun n => n.links.all fun c => i < c.index

/-- Where all links lead forward there is no cycle. -/
theorem noCycle_of_leadsForward {g : Graph} (forward : g.leadsForward = true) (id : NodeId) : g.NoCycle id := by
  have increasing : ∀ p c, g.Leads p c → p.index < c.index := by
    intro p c link
    obtain ⟨n, live⟩ := contains_iff.mp link.live
    have slot := node?_eq_some_iff.mp live
    have inside := (List.getElem?_eq_some_iff.mp slot).1
    have checked := List.all_eq_true.mp forward p.index (List.mem_range.mpr inside)
    rw [Leads, outgoing_of_live live] at link
    have later : ∀ c ∈ n.links, p.index < c.index := by simpa [slot] using checked
    exact later c link
  -- The slot grows along every path.
  have along : ∀ p c, Relation.TransGen g.Leads p c → p.index < c.index := by
    intro p c path
    induction path with
    | single link => exact increasing _ _ link
    | tail _ link ih => exact ih.trans (increasing _ _ link)
  intro c _ cycle
  exact absurd (along c c cycle) (Nat.lt_irrefl _)

/-- An owner that is settled builds to what it unfolds to, with the item that was derived. -/
theorem build_unfolds_owner : ∃ r, Unfolds (giving (itemOf 0 false "a" "n"))
    (settledGraph (giving (itemOf 0 false "a" "n")) newOwner) ⟨0, 0⟩ r ∧ textAt r "item" "note" = some "n" := by
  have reached : ReachableBy (giving (itemOf 0 false "a" "n")) ownerSchema
      (Conforming (giving (itemOf 0 false "a" "n")) ownerSchema ownerSchema.declares
        (Listed [newOwner, itemOf 0 false "a" "n"])) (settledGraph (giving (itemOf 0 false "a" "n")) newOwner) :=
    ((ReachableBy.empty defaultRounds).apply (.absorb newOwner none) (by decide +kernel)).apply
      (.settle (giving (itemOf 0 false "a" "n")).contextual) (by decide +kernel)
  have computed : ((settledGraph (giving (itemOf 0 false "a" "n")) newOwner).contains ⟨0, 0⟩ = true ∧
      (settledGraph (giving (itemOf 0 false "a" "n")) newOwner).leadsForward = true) ∧
      ((build (giving (itemOf 0 false "a" "n")) ⟨0, 0⟩).run'
        (settledGraph (giving (itemOf 0 false "a" "n")) newOwner)).map (textAt · "item" "note") = some (some "n") := by
    decide +kernel
  obtain ⟨⟨live, forward⟩, read⟩ := computed
  obtain ⟨builds, -⟩ := reached.build_unfolds compile_owner (keysTellTypes_listed (by decide +kernel))
  obtain ⟨r, g', built, unfolds⟩ := builds ⟨0, 0⟩ live (noCycle_of_leadsForward forward _)
  -- The record that is built is the one whose text was read.
  obtain ⟨r', run, text⟩ := Option.map_eq_some_iff.mp read
  rw [eq_ok_of_run' run] at built
  cases built
  exact ⟨r, (unfolds r).mpr rfl, text⟩

/-- A part of another schema, where parts are entities, has the shape of the field. It becomes a link that no search
follows, and something else stands for it in the snapshot. -/
theorem not_build_unfolds : ¬ ∀ (serial : Nat) (d : Declarations) (s : Schema) (F : Formulas)
    (known : Record → Prop) (g : Graph) (id : NodeId), Schema.compile serial d = .ok s → KeysTellTypes known →
    ReachableBy F s (Conforming F s (fun _ => true) known) g → g.contains id = true →
    g.NoCycle id → ∃ r g', build F id g = .ok r g' ∧ Unfolds F g id r := by
  intro claim
  have reached : ReachableBy (giving (partOf 1 true "p")) ownerSchema
      (Conforming (giving (partOf 1 true "p")) ownerSchema (fun _ => true) (Listed [newHolder, partOf 1 true "p"]))
      (settledGraph (giving (partOf 1 true "p")) newHolder) :=
    ((ReachableBy.empty defaultRounds).apply (.absorb newHolder none) (by decide +kernel)).apply
      (.settle (giving (partOf 1 true "p")).contextual) (by decide +kernel)
  have computed : ((settledGraph (giving (partOf 1 true "p")) newHolder).contains ⟨0, 0⟩ = true ∧
      (settledGraph (giving (partOf 1 true "p")) newHolder).leadsForward = true) ∧
      ((build (giving (partOf 1 true "p")) ⟨0, 0⟩).run'
        (settledGraph (giving (partOf 1 true "p")) newHolder)).map (textAt · "part" "label") = some none ∧
      ((settledGraph (giving (partOf 1 true "p")) newHolder).unfolded? (giving (partOf 1 true "p")) 2 ⟨0, 0⟩).map
        (textAt · "part" "label") = some (some "p") := by decide +kernel
  obtain ⟨⟨live, forward⟩, read, right⟩ := computed
  obtain ⟨r, g', built, unfolds⟩ := claim 0 ownerDeclarations ownerSchema _ _ _ ⟨0, 0⟩ compile_owner
    (keysTellTypes_listed (by decide +kernel)) reached live (noCycle_of_leadsForward forward _)
  -- The part of the snapshot has no label, and the node of the part has one.
  obtain ⟨r', run, text⟩ := Option.map_eq_some_iff.mp read
  rw [eq_ok_of_run' run] at built
  cases built
  obtain ⟨whole, unfolded, label⟩ := Option.map_eq_some_iff.mp right
  rw [unfolds.unique (unfolds_of_unfolded? unfolded), label] at text
  cases text

end EntityGraph.Graph
