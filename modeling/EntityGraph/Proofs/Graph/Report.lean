import EntityGraph.Proofs.Diff
import EntityGraph.Proofs.Graph.Coherence
import EntityGraph.Proofs.Graph.Filling

/-! What settling reports of an entity: one change at most, from the snapshot that the last settle left to the one that
this settle leaves. -/

namespace EntityGraph

open List

namespace Graph

open Step

variable {id : NodeId} {g : Graph} {acts : List Act} {r : Record}

/-- The operations of a run without reads that absorbs entities of the schema, derives fields that pass a test, and
meets known records only. -/
def Knowing (F : Formulas) (s : Schema) (test : Field Value → Bool) (known : Record → Prop) (g : Graph) :
    Operation → Prop
  | .absorb r _ => s.IsEntity r ∧ ∀ act ∈ Acts.ofRecord s r, act.Knows known
  | .retain _ | .release _ => True
  | .settle contextual => ∀ h ∈ roundStarts (F.withContextual contextual) g.maxRounds g,
    ∀ e ∈ derivedAt (F.withContextual contextual) h,
      test e.2 = true ∧ ∀ act ∈ Acts.ofField s e.2, act.Knows known
  | .build _ | .invalidate _ | .takePrevious _ => False

section decidable

variable (F : Formulas) (s : Schema) (test : Field Value → Bool) (known : Record → Prop)
  [DecidablePred known]

instance (r : Record) : Decidable (s.IsEntity r) :=
  inferInstanceAs (Decidable (_ ∧ _))

instance (g : Graph) (op : Operation) : Decidable (Knowing F s test known g op) :=
  match op with
  | .absorb .. | .settle _ | .retain _ | .release _ | .build _ | .invalidate _ | .takePrevious _ => by
    dsimp only [Knowing]
    infer_instance

end decidable

/-- The snapshot that was reported last: the evicted one, or else the cached one. -/
def last? (g : Graph) (id : NodeId) : Option Record :=
  (g.node? id).bind fun n => n.previous <|> n.cached

theorem last?_of_lone {g' : Graph} {j : NodeId} (same : (g'.node? j).map Node.lone = (g.node? j).map Node.lone) :
    g'.last? j = g.last? j := by
  have read := congrArg (fun m : Option Node => m.bind fun n => n.previous <|> n.cached) same
  simpa [last?, Option.bind_map, Function.comp_def, Node.lone] using read

/-- Acts evict snapshots, but do not change which one was reported last. -/
theorem Does.last {g' : Graph} {act : Act} (does : Does g act g') (sound : Sound g) (live : g'.contains id = true) :
    g'.last? id = g.last? id := by
  obtain ⟨n', there⟩ := contains_iff.mp live
  obtain ⟨n, origin, same⟩ := does.origin sound there
  have kept : (n'.previous <|> n'.cached) = (n.previous <|> n.cached) := by
    rcases same with equal | equal
    · simp only [Node.lone, Node.mk.injEq] at equal
      rw [equal.2.2.2.2.2.2.1, equal.2.2.2.2.2.2.2]
    · simp only [Node.lone, Node.evict, Node.mk.injEq] at equal
      rw [equal.2.2.2.2.2.2.1, equal.2.2.2.2.2.2.2]
      cases n.previous <;> cases n.cached <;> rfl
  rw [last?, there, Option.bind_some, kept]
  cases origin with
  | kept before => rw [last?, before, Option.bind_some]
  | made _ _ dead =>
    rw [last?, dead]
    rfl
  | wrote _ before => rw [last?, before, Option.bind_some]

theorem Performs.last {g' : Graph} (performs : Performs acts g g') (sound : Sound g)
    (live : g'.contains id = true) : g'.last? id = g.last? id := by
  induction performs with
  | nil => rfl
  | @cons act acts g g₁ g' first rest ih =>
    have sound₁ := ((Performs.single first).sound sound).1
    rw [ih sound₁ live]
    cases here : g₁.node? id with
    | some n => exact first.last sound (contains_iff.mpr ⟨n, here⟩)
    | none =>
      -- What is not there now was not there before.
      cases before : g.node? id with
      | none => rw [last?, last?, here, before]
      | some m =>
        obtain ⟨n', there, -⟩ := ((Performs.single first).sound sound).2.1.live id m before
        rw [here] at there
        cases there

theorem Sound.last_sweep (sound : Sound g) (live : g.sweep.contains id = true) : g.sweep.last? id = g.last? id :=
  last?_of_lone (sound.sweep.kept id ((sound.sweep.contains_iff id).mp live).2)

/-- Performing acts and sweeping changes no snapshot that was reported last. -/
theorem Performs.last_sweep {merged : Graph} (performs : Performs acts g merged) (sound : Sound g)
    (orphans created : List NodeId)
    (live : (sweep { merged with orphans := orphans, created := created }).contains id = true) :
    (sweep { merged with orphans := orphans, created := created }).last? id = g.last? id := by
  have sound' : Sound { merged with orphans := orphans, created := created } :=
    (performs.sound sound).1.quiet (.pending _ _ _ _)
  rw [sound'.last_sweep live]
  exact performs.last sound ((sound'.sweep.contains_iff id).mp live).1

theorem last_holds (g : Graph) (id : NodeId) (f : Nat → Nat) (j : NodeId) :
    (g.update id fun n => { n with holds := f n.holds }).last? j = g.last? j :=
  bind_node?_update g id (fun n => { n with holds := f n.holds }) _ (fun _ => rfl) j

/-- What holds of every graph of a run without reads whose records are entities. -/
structure Tracked (s : Schema) (known : Record → Prop) (g : Graph) : Prop where
  schema_eq : g.schema = s
  sound : Sound g
  queued : Queued g
  entities : Nodes (Node.Entity s known) g

/-- The second graph is tracked as well, and none of the snapshots that were reported last has changed. -/
structure Follows (s : Schema) (known : Record → Prop) (g g' : Graph) : Prop where
  tracked : Tracked s known g'
  last : ∀ id, g'.contains id = true → g'.last? id = g.last? id

namespace Tracked

variable {F : Formulas} {s : Schema} {known : Record → Prop} {g' : Graph}

variable (tracked : Tracked s known g)
include tracked

theorem pending (orphans created : List NodeId) : Tracked s known { g with orphans := orphans, created := created } :=
  ⟨tracked.schema_eq, tracked.sound.quiet (.pending _ _ _ _), tracked.queued.others _ _, tracked.entities⟩

theorem sweep : Tracked s known g.sweep where
  schema_eq := tracked.sound.sweep.schema.trans tracked.schema_eq
  sound := tracked.sound.sweep.sound
  queued := tracked.queued.sweep tracked.sound
  entities := tracked.entities.swept Node.Entity.loose tracked.sound.sweep

theorem holds (id : NodeId) (f : Nat → Nat) :
    Tracked s known (g.update id fun n => { n with holds := f n.holds }) where
  schema_eq := (update_schema g id _).trans tracked.schema_eq
  sound := tracked.sound.holds id f
  queued := tracked.queued.holds id f
  entities := tracked.entities.update fun n _ entity => Node.Entity.loose.held n _ entity

/-- The snapshot that was reported last is an own record with the key of its node. -/
theorem last (reported : g.last? id = some r) : s.ownsRecord r = true ∧ r.key = g.keyOf id := by
  obtain ⟨n, live, found⟩ := Option.bind_eq_some_iff.mp reported
  have snapshot : n.cached = some r ∨ n.previous = some r := by
    cases evicted : n.previous with
    | none =>
      rw [evicted] at found
      exact Or.inl found
    | some p =>
      rw [evicted] at found
      exact Or.inr found
  obtain ⟨own, -, key⟩ := (tracked.entities id n live).snapshots r snapshot
  exact ⟨own, by rw [keyOf, live]; exact key⟩

theorem owned : Nodes (Node.Owned s) g := fun id n live =>
  (tracked.entities id n live).toOwned

theorem named (plainly : s.IdentifiesPlainly) : Named s known g := by
  intro id n live
  have entity := tracked.entities id n live
  obtain ⟨keys, draft⟩ := entity.draft
  exact ⟨draft.rekey plainly g.keyOf, entity.filled⟩

section steps

variable (accepted : s.Accepted) (plainly : s.IdentifiesPlainly) (entities : Entities s known)
include accepted plainly entities

/-- Acts that are admitted, ready and complete keep it. -/
theorem performs (admits : ∀ act ∈ acts, Admits s known g act) (own : ∀ w, .write w ∈ acts → s.ownsField w.field = true)
    (ready : Acts.Ready s [] acts) (complete : ∀ r, .meet r ∈ acts → ∀ w : Write, w.Of s r → .write w ∈ acts)
    (performs : Performs acts g g') : Tracked s known g' := by
  obtain ⟨sound', grows, -⟩ := performs.sound tracked.sound
  have filling := (Filling.start tracked.schema_eq (tracked.named plainly)).performs accepted entities.toDistinct
    tracked.sound admits ready performs
  exact ⟨grows.schema.trans tracked.schema_eq, sound',
    tracked.queued.edits tracked.sound (performs.edits tracked.sound),
    (filling.named_of_complete entities.toDistinct complete).entities
      (performs.owned tracked.sound own tracked.owned)⟩

/-- Absorbing known records keeps it, also if it fails. -/
theorem absorb (met : ∀ act ∈ Acts.ofRecord s r, act.Knows known) (parentRoot : Option NodeId) :
    Follows s known g ((Graph.absorb r parentRoot).after g) := by
  have tidy := Acts.tidy_ofRecord s r
  have admits := admits_of_tidy tidy met g
  have own := ownsField_of_tidy entities.own tidy met
  have traces := absorb_traces tracked.sound r parentRoot
  rw [tracked.schema_eq] at traces
  refine traces.after ?_ ?_
  · rintro id g' ⟨merged, performs, -, rfl⟩
    have tracked' := tracked.performs accepted plainly entities admits own (tidy.ready []) tidy.complete performs
    exact ⟨(tracked'.pending _ _).sweep, fun j live => performs.last_sweep tracked.sound _ _ live⟩
  · -- After a failure what is not finished is swept away.
    rintro e g' ⟨done, merged, first, performs, rfl⟩
    have sound' := (performs.sound tracked.sound).1
    have filling := (Filling.start tracked.schema_eq (tracked.named plainly)).performs accepted entities.toDistinct
      tracked.sound (fun act member => admits act (first.subset member)) ((tidy.ready []).of_first first) performs
    have owned : Nodes (Node.Owned s)
        { merged with created := [], orphans := merged.created ++ merged.orphans } :=
      performs.owned tracked.sound (fun w member => own w (first.subset member)) tracked.owned
    have queued := (tracked.queued.edits tracked.sound (performs.edits tracked.sound)).others
      (merged.created ++ merged.orphans) []
    have pending := sound'.quiet (.pending merged merged.changed (merged.created ++ merged.orphans) [])
    exact ⟨⟨pending.sweep.schema.trans filling.schema, pending.sweep.sound, queued.sweep pending,
      (filling.named_of_swept sound').entities (owned.swept Node.Owned.loose pending.sweep)⟩,
      fun j live => performs.last_sweep tracked.sound _ _ live⟩

/-- A round derives results in a graph that is tracked, and stores them there. -/
theorem round_parts (keep : F.KeepOwn s)
    (given : ∀ e ∈ derivedAt F g, s.ownsField e.2 = true ∧ ∀ act ∈ Acts.ofField s e.2, act.Knows known) :
    ∃ diff g₁, Derived F g diff (derivedAt F g) g₁ ∧ Tracked s known g₁ ∧
      Ends (Graph.round F) g (fun diff' g' => diff' = diff ∧ Follows s known g₁ g') fun _ _ => True := by
  obtain ⟨diff, g₁, derived, sound₁, ends⟩ := tracked.sound.round_parts F
  have schema₁ : g₁.schema = s := derived.schema.trans tracked.schema_eq
  have tracked₁ : Tracked s known g₁ := ⟨schema₁, sound₁, tracked.queued.derived derived,
    derived.lasting _ (Node.Entity.lasting accepted plainly entities keep) tracked.entities⟩
  refine ⟨diff, g₁, derived, tracked₁, ends.mono ?_ fun _ _ _ => trivial⟩
  rintro _ g' ⟨rfl, merged, performs, rfl⟩
  rw [schema₁] at performs
  refine ⟨rfl, (tracked₁.performs accepted plainly entities ?_ ?_ (Acts.ready_ofResults s _ _ [])
    (fun r met w of => Acts.complete_ofResults s met of) performs).sweep,
    fun id live => performs.last_sweep sound₁ merged.orphans merged.created live⟩
  · -- The fields that formulas derive have no part in the identity.
    intro act member
    obtain ⟨e, listed, among⟩ := mem_flatMap.mp member
    rcases mem_append.mp among with stored | written
    · exact admits_of_tidy (Acts.tidy_ofField s e.2) (given e listed).2 g₁ act stored
    · cases mem_singleton.mp written
      obtain ⟨n, info, formula, live, there, contextual⟩ :=
        derived.contextual (fun id n live => ⟨(tracked.entities id n live).length, fun r cached =>
          ((tracked.entities id n live).snapshots r (Or.inl cached)).2.1⟩) e listed
      refine Or.inr ⟨e.1.id, n, info, sound₁.toArena.find?_keyOf (derived.live e listed), live, there, fun _ => ?_⟩
      simp [contextual]
  · intro w member
    obtain ⟨e, listed, among⟩ := mem_flatMap.mp member
    obtain ⟨own, met⟩ := given e listed
    rcases mem_append.mp among with stored | written
    · exact ownsField_of_tidy entities.own (Acts.tidy_ofField s e.2) met w stored
    · cases mem_singleton.mp written
      exact own

end steps

end Tracked

theorem last?_eq (g : Graph) (id : NodeId) : g.last? id = (g.previous? id <|> g.cached? id) := by
  unfold last? previous? cached?
  cases g.node? id <;> rfl

theorem Queued.last_of_cached (queued : Queued g) (cached : g.cached? id = some r) : g.last? id = some r := by
  rw [last?_eq, queued.previous_eq_none cached, cached]
  rfl

/-- Where one element alone gives what is looked for, all else is filtered out. -/
theorem filter_filterMap {α β : Type} [DecidableEq α] {items : List α} (once : items.Nodup) {f : α → Option β}
    {p : β → Bool} {a : α} (only : ∀ j ∈ items, ∀ b, f j = some b → (p b = true ↔ j = a)) :
    (items.filterMap f).filter p = if a ∈ items then (f a).toList else [] := by
  induction items with
  | nil => rfl
  | cons j rest ih =>
    rw [nodup_cons] at once
    have later := ih once.2 fun j' member => only j' (.tail _ member)
    have here := only j mem_cons_self
    by_cases same : j = a
    · subst same
      rw [if_neg once.1] at later
      cases found : f j with
      | none => simp [found, later]
      | some b => simp [found, later, (here b found).mpr rfl]
    · have passed : a ∈ j :: rest ↔ a ∈ rest := by simp [Ne.symm same]
      simp only [passed]
      rw [← later]
      cases found : f j with
      | none => simp [found]
      | some b =>
        have apart : p b = false := by simpa [same] using here b found
        simp [found, apart]

section round

variable {F : Formulas} {s : Schema} {known : Record → Prop} {g₁ : Graph} {diff : Diff}
  {results : List (Task × Field Value)}

/-- The diff of a round has a change of an entity exactly when its node is queued and its snapshot is not as it was. -/
theorem Derived.at?_keyOf (derived : Derived F g diff results g₁) (queued : Queued g)
    (tracked₁ : Tracked s known g₁) (live : g₁.contains id = true) :
    diff.at? (g₁.keyOf id) = if id ∈ g.changed then
      ((g₁.cached? id).bind fun is => changeOf? id (g.previous? id) is).map Changed.change else none := by
  rw [derived.changes queued.once, Diff.at?_foldl_push, map_filterMap]
  rw [filter_filterMap queued.once fun j member c found => ?_]
  · by_cases member : id ∈ g.changed
    · rw [if_pos member, if_pos member]
      cases ((g₁.cached? id).bind fun is => changeOf? id (g.previous? id) is).map Changed.change <;> rfl
    · rw [if_neg member, if_neg member]
      rfl
  · -- A snapshot has the key of its node, and no other node has it.
    obtain ⟨c', listed, rfl⟩ := Option.map_eq_some_iff.mp found
    obtain ⟨is, cached, change⟩ := Option.bind_eq_some_iff.mp listed
    obtain ⟨n, there, -⟩ := Option.bind_eq_some_iff.mp cached
    have snapshot : c'.change.is = is := by
      unfold changeOf? at change
      split at change
      · cases change
      · cases change
        rfl
    have key := (tracked₁.last (tracked₁.queued.last_of_cached cached)).2
    rw [snapshot, decide_eq_true_eq, key]
    constructor
    · intro same
      have found := tracked₁.sound.toArena.find?_keyOf (contains_iff.mpr ⟨n, there⟩)
      rw [same, tracked₁.sound.toArena.find?_keyOf live] at found
      exact (Option.some.inj found).symm
    · rintro rfl
      rfl

/-- The diff of a round tells what became of every entity. -/
theorem Derived.tells (derived : Derived F g diff results g₁) (accepted : s.Accepted)
    (tracked : Tracked s known g) (tracked₁ : Tracked s known g₁) (live : g₁.contains id = true) :
    diff.Tells s (g₁.keyOf id) (g.last? id) (g₁.last? id) := by
  have at_ := derived.at?_keyOf tracked.queued tracked₁ live
  have own : ∀ r, g.last? id = some r → s.ownsRecord r = true := fun r found => (tracked.last found).1
  obtain ⟨is, cached⟩ := (tracked.queued.built derived live).1
  have last := tracked₁.queued.last_of_cached cached
  have own' := (tracked₁.last last).1
  rw [last]
  by_cases member : id ∈ g.changed
  · rw [if_pos member, cached, Option.bind_some] at at_
    have before : g.last? id = g.previous? id := by
      rw [last?_eq, tracked.queued.unbuilt id member]
      cases g.previous? id <;> rfl
    unfold changeOf? at at_
    split at at_
    · -- Built again, the snapshot is as it was.
      rename_i same
      obtain ⟨w, found, equal⟩ := (Option.any_eq_true _ _).mp same
      rw [← before] at found
      refine .nothing at_ ?_
      rw [found]
      exact .some ⟨own w found, own', equal⟩
    · -- It is another one, and the change leads from the one to the other.
      refine .change at_ ?_ (.refl accepted fun r same => by cases same; exact own')
      rw [← before]
      exact .refl accepted own
  · -- A node that is not queued has its snapshot already.
    rw [if_neg member] at at_
    refine .nothing at_ ?_
    rw [derived.cores.contains] at live
    cases before : g.cached? id with
    | none => exact absurd (tracked.queued.pending id live before) member
    | some r =>
      rw [derived.kept id r before] at cached
      cases cached
      rw [tracked.queued.last_of_cached before]
      exact .refl accepted fun r same => by cases same; exact own'

end round

/-- A run in which every settle succeeds: the graph where the last settle ended or the run started, the graphs since
then with the newest first, and the graph now. Each operation is allowed where it is applied. -/
inductive RunSince (F : Formulas) (s : Schema) (allowed : Graph → Operation → Prop) :
    Graph → List Graph → Graph → Prop where
  | start (maxRounds : Nat) : RunSince F s allowed (Graph.empty s maxRounds)
      [Graph.empty s maxRounds] (Graph.empty s maxRounds)
  | call {g₀ g : Graph} {seen : List Graph} (run : RunSince F s allowed g₀ seen g) (op : Operation)
      (other : ∀ contextual, op ≠ .settle contextual) (ok : allowed g op) :
      RunSince F s allowed g₀ (op.apply F g :: seen) (op.apply F g)
  | settle {g₀ g g' : Graph} {seen : List Graph} {diff : Diff} (run : RunSince F s allowed g₀ seen g)
      (contextual : String → Context → Field Value) (ok : allowed g (.settle contextual))
      (settled : Graph.settle (F.withContextual contextual) g = .ok diff g') :
      RunSince F s allowed g' [g'] g'

/-- What holds along such a run: a node that is new since the last settle was not reported, and the others were reported
as the last settle left them. -/
structure Reported (s : Schema) (known : Record → Prop) (g₀ : Graph) (seen : List Graph) (g : Graph) : Prop
    extends Tracked s known g where
  new : ∀ id, g.contains id = true → (∃ h ∈ seen, h.contains id = false) → g.last? id = none
  old : ∀ id, (∀ h ∈ seen, h.contains id = true) → ∃ r, g₀.cached? id = some r ∧ g.last? id = some r

section run

variable {F : Formulas} {s : Schema} {known : Record → Prop} {g₀ g' : Graph} {seen : List Graph}

/-- Where nothing is queued all is reported. -/
theorem Tracked.reported (tracked : Tracked s known g) (settled : g.changed = []) : Reported s known g [g] g := by
  refine ⟨tracked, fun id live dead => ?_, fun id live => ?_⟩
  · obtain ⟨h, member, dead⟩ := dead
    cases mem_singleton.mp member
    rw [live] at dead
    cases dead
  · cases cached : g.cached? id with
    | some r => exact ⟨r, rfl, tracked.queued.last_of_cached cached⟩
    | none =>
      have member := tracked.queued.pending id (live g mem_cons_self) cached
      rw [settled] at member
      cases member

/-- A graph that follows is reported in the same way. -/
theorem Reported.follows (reported : Reported s known g₀ seen g) (follows : Follows s known g g') :
    Reported s known g₀ (g' :: seen) g' := by
  refine ⟨follows.tracked, fun id live dead => ?_, fun id live => ?_⟩
  · obtain ⟨h, member, dead⟩ := dead
    rw [follows.last id live]
    rcases mem_cons.mp member with rfl | earlier
    · rw [live] at dead
      cases dead
    · cases before : g.node? id with
      | some n => exact reported.new id (contains_iff.mpr ⟨n, before⟩) ⟨h, earlier, dead⟩
      | none => rw [last?, before]; rfl
  · rw [follows.last id (live g' mem_cons_self)]
    exact reported.old id fun h member => live h (.tail _ member)

variable (accepted : s.Accepted) (plainly : s.IdentifiesPlainly) (apart : KeysTellIdentities known)
include accepted plainly apart

/-- Operations other than settling leave what was reported alone. -/
theorem Tracked.apply (tracked : Tracked s (s.Entity known) g) {test : Field Value → Bool} {op : Operation}
    (other : ∀ contextual, op ≠ .settle contextual) (ok : Knowing F s test known g op) :
    Follows s (s.Entity known) g (op.apply F g) := by
  -- A change of holds, with or without a sweep, may also be refused.
  have same : Follows s (s.Entity known) g g := ⟨tracked, fun _ _ => rfl⟩
  cases op with
  | absorb r parentRoot =>
    obtain ⟨entity, met⟩ := ok
    have entities := Schema.isEntity_ofValue (.record r) (by rw [Schema.owns_record]; exact entity.1)
    rw [Acts.ofValue, if_pos entity.2] at entities
    exact tracked.absorb accepted plainly (apart.entities s)
      (fun act member => (met act member).entity (entities act member)) parentRoot
  | retain id =>
    exact Operation.apply_retain same fun _ => ⟨tracked.holds id (· + 1), fun j _ => last_holds g id (· + 1) j⟩
  | release id =>
    refine Operation.apply_release same fun orphans => ?_
    have pending := (tracked.holds id (· - 1)).pending orphans
      (g.update id fun n => { n with holds := n.holds - 1 }).created
    refine ⟨pending.sweep, fun j live => ?_⟩
    exact (pending.sound.last_sweep live).trans (last_holds g id (· - 1) j)
  | settle contextual => exact absurd rfl (other contextual)
  | build id => cases ok
  | invalidate id => cases ok
  | takePrevious id => cases ok

variable (keep : F.KeepOwn s)
include keep

/-- Settling keeps the graph tracked, and its diff tells what became of an entity that stays live. -/
theorem Tracked.settles (tracked : Tracked s (s.Entity known) g)
    (ok : Knowing F s s.ownsField known g (.settle F.contextual)) :
    Ends (Graph.settle F) g (fun diff g' => Tracked s (s.Entity known) g' ∧ g'.changed = [] ∧
      diff.Keyed ∧ ∀ id, g.contains id = true → (∀ h ∈ roundStarts F g.maxRounds g, h.contains id = true) →
        g'.contains id = true → g'.keyOf id = g.keyOf id ∧ diff.Tells s (g.keyOf id) (g.last? id) (g'.last? id))
      fun _ _ => True := by
  have keeps := @settle_keeps F g (fun total h => Tracked s (s.Entity known) h ∧ total.Keyed ∧
    ∀ id, g.contains id = true → (∀ h ∈ roundStarts F g.maxRounds g, h.contains id = true) →
      h.contains id = true → h.keyOf id = g.keyOf id ∧ total.Tells s (g.keyOf id) (g.last? id) (h.last? id))
    (fun _ => True) ⟨tracked, .empty, fun id _ _ _ => ⟨rfl, .nothing rfl (.refl accepted fun r found =>
      (tracked.last found).1)⟩⟩ (fun _ _ _ => trivial) ?_
  · refine keeps.mono (fun diff g' held => ?_) fun _ _ _ => trivial
    obtain ⟨⟨tracked', keyed, tells⟩, settled, -⟩ := held
    exact ⟨tracked', settled, keyed, tells⟩
  · -- In a round snapshots are built, and the results stored behind them.
    rintro h member total ⟨trackedₕ, keyed, tells⟩
    obtain ⟨diff, h₁, derived, tracked₁, ends⟩ := trackedₕ.round_parts accepted plainly (apart.entities s) keep
      fun e listed => ⟨(ok h member e listed).1, fun act among =>
        ((ok h member e listed).2 act among).entity (Schema.isEntity_ofField (ok h member e listed).1 act among)⟩
    refine ends.mono ?_ fun _ _ _ => trivial
    rintro _ h' ⟨rfl, follows⟩
    refine ⟨follows.tracked, keyed.merge _, fun id live throughout live' => ?_⟩
    obtain ⟨key, told⟩ := tells id live throughout (throughout h member)
    have live₁ : h₁.contains id = true := by
      rw [derived.cores.contains]
      exact throughout h member
    have key₁ : h₁.keyOf id = h.keyOf id := by
      have same := derived.cores.map Node.key (fun _ => rfl) id
      rw [keyOf, same, keyOf]
    obtain ⟨is, cached⟩ := (trackedₕ.queued.built derived live₁).1
    have last := tracked₁.queued.last_of_cached cached
    have after := derived.tells accepted trackedₕ tracked₁ live₁
    rw [key₁, key, ← follows.last id live'] at after
    refine ⟨?_, told.merge accepted (derived.changes trackedₕ.queued.once ▸ Diff.Keyed.empty.foldl_push _) after⟩
    -- The snapshot that is left tells the key.
    have last' := follows.last id live'
    rw [last] at last'
    rw [← (follows.tracked.last last').2, (tracked₁.last last).2, key₁, key]

/-- Along a run everything is reported. -/
theorem RunSince.reported (run : RunSince F s (Knowing F s s.ownsField known) g₀ seen g) :
    Reported s (s.Entity known) g₀ seen g := by
  induction run with
  | start maxRounds =>
    exact Tracked.reported ⟨rfl, .empty s maxRounds, .empty s maxRounds, fun id n live => by cases live⟩ rfl
  | call _ op other ok ih => exact ih.follows (ih.toTracked.apply accepted plainly apart other ok)
  | settle _ contextual ok settled ih =>
    -- The formulas of this settling differ from the others in the contextual ones alone.
    have keep' : (F.withContextual contextual).KeepOwn s := keep
    have ends := ih.toTracked.settles accepted plainly apart keep' ok
    rw [Ends, settled] at ends
    exact ends.1.reported ends.2.1

end run

/-- In a run without reads whose settles succeed, where identifying fields are given and do not link, absorbed and
derived records are the schema's own, and keys tell identities apart, settling reports of every node that stays live: at
most one change; one from nothing if the node is new; one from the snapshot that the last settle left if that differs in
state from the one left now; and each leads to the one left now. -/
theorem RunSince.settle_reports {serial : Nat} {d : Declarations} {F : Formulas} {s : Schema}
    {known : Record → Prop} {g₀ g g' : Graph} {seen : List Graph} {diff : Diff} {id : NodeId}
    (compiled : Schema.compile serial d = .ok s) (plainly : s.IdentifiesPlainly)
    (apart : KeysTellIdentities known) (keep : F.KeepOwn s)
    (run : RunSince F s (Knowing F s s.ownsField known) g₀ seen g)
    (ok : Knowing F s s.ownsField known g (.settle F.contextual))
    (settled : Graph.settle F g = .ok diff g')
    (here : g.contains id = true) (throughout : ∀ h ∈ roundStarts F g.maxRounds g, h.contains id = true)
    (there : g'.contains id = true) :
    ∃ last, g'.cached? id = some last ∧ last.key = g.keyOf id ∧
      (diff.toList.filter fun c => c.is.key = last.key).length ≤ 1 ∧
      ((∃ h ∈ seen, h.contains id = false) → ∃ c ∈ diff.toList, c.is.key = last.key ∧ c.was = none) ∧
      ((∀ h ∈ seen, h.contains id = true) → ∃ first, g₀.cached? id = some first ∧
        (first.equals .state last = false → ∃ c ∈ diff.toList, c.is.key = last.key ∧
          ∃ was, c.was = some was ∧ first.equals .state was = true)) ∧
      ∀ c ∈ diff.toList, c.is.key = last.key → c.is.equals .state last = true := by
  have accepted : s.Accepted := fun _ _ type => Schema.accepted_of_type? compiled type
  have reported := run.reported accepted plainly apart keep
  have ends := reported.toTracked.settles accepted plainly apart keep ok
  rw [Ends, settled] at ends
  obtain ⟨tracked', rested, keyed, told⟩ := ends
  obtain ⟨last, cached, left⟩ := (tracked'.reported rested).old id (by simpa using there)
  obtain ⟨key, tells⟩ := told id here throughout there
  have same : last.key = g.keyOf id := (tracked'.last left).2.trans key
  rw [left, ← same] at tells
  -- The changes of the entity are what is found under its key.
  refine ⟨last, cached, same, ?_, fun new => ?_, fun old => ?_, fun c member named => ?_⟩
  · rw [keyed.filter_toList]
    cases diff.at? last.key <;> simp
  · rw [reported.new id here new] at tells
    cases tells with
    | nothing none alike => cases alike
    | @change c found was is =>
      obtain ⟨member, named⟩ := keyed.at?_eq_some_iff.mp found
      refine ⟨c, member, named, ?_⟩
      cases before : c.was with
      | none => rfl
      | some w => rw [before] at was; cases was
  · obtain ⟨first, before, reported'⟩ := reported.old id old
    rw [reported'] at tells
    refine ⟨first, before, fun differs => ?_⟩
    cases tells with
    | nothing none alike =>
      cases alike with
      | some alike =>
        rw [alike.2.2] at differs
        cases differs
    | @change c found was is =>
      obtain ⟨member, named⟩ := keyed.at?_eq_some_iff.mp found
      refine ⟨c, member, named, ?_⟩
      cases before : c.was with
      | none => rw [before] at was; cases was
      | some w =>
        rw [before] at was
        cases was with
        | some alike => exact ⟨w, rfl, alike.2.2⟩
  · have found := keyed.at?_eq_some_iff.mpr ⟨member, named⟩
    cases tells with
    | nothing none => rw [none] at found; cases found
    | change found' _ is =>
      rw [found] at found'
      cases found'
      cases is with
      | some alike => exact alike.2.2

/-- Fields that are texts or absent, and the same. -/
def sameTexts : List (Field Value) → List (Field Value) → Bool
  | [], [] => true
  | .absent :: fields, .absent :: others => sameTexts fields others
  | .value (.text a) :: fields, .value (.text b) :: others => a == b && sameTexts fields others
  | _, _ => false

theorem eq_of_sameTexts {fields others : List (Field Value)} (same : sameTexts fields others = true) :
    fields = others := by
  fun_induction sameTexts fields others with
  | case1 => rfl
  | case2 fields others ih => rw [ih same]
  | case3 a fields b others ih =>
    rw [Bool.and_eq_true, beq_iff_eq] at same
    rw [same.1, ih same.2]
  | case4 => cases same

/-- One of the given records, whose fields are texts or absent. -/
def Flat (records : List Record) (r : Record) : Prop :=
  ∃ a ∈ records, a.layout = r.layout ∧ sameTexts a.fields r.fields = true

instance (records : List Record) : DecidablePred (Flat records) :=
  fun r => inferInstanceAs (Decidable (∃ a ∈ records, a.layout = r.layout ∧ sameTexts a.fields r.fields = true))

/-- Whether keys of such records tell identities apart can be computed. -/
theorem keysTellIdentities_flat {records : List Record}
    (apart : ∀ a ∈ records, ∀ b ∈ records, a.key = b.key →
      a.layout = b.layout ∧ sameTexts a.identity.fields b.identity.fields = true) :
    KeysTellIdentities (Flat records) := by
  have listed : ∀ r, Flat records r → r ∈ records := by
    rintro ⟨layout, fields⟩ ⟨⟨_, _⟩, member, rfl, texts⟩
    cases eq_of_sameTexts texts
    exact member
  intro a b first second same
  obtain ⟨layout, texts⟩ := apart a (listed a first) b (listed b second) same
  have identity : a.identity = b.identity := by
    rcases a with ⟨_, fields⟩
    rcases b with ⟨_, fields'⟩
    cases layout
    exact congrArg (RecordOf.mk _) (eq_of_sameTexts texts)
  exact ⟨by rw [RecordOf.typeName, layout]; rfl, by rw [identity]⟩

theorem identifiesPlainly_owner : ownerSchema.IdentifiesPlainly := by
  unfold Schema.IdentifiesPlainly
  decide

theorem keepOwn_giving (r : Record) (s : Schema) : (giving r).KeepOwn s :=
  fun _ _ _ => rfl

/-- The graph of an item and an owner, whose item is derived. -/
def newPair (F : Formulas) (item : Record) : Graph :=
  (Operation.absorb newOwner none).apply F
    ((Operation.absorb item none).apply F (Graph.empty ownerSchema defaultRounds))

/-- The formulas that give every owner one item. -/
def givingItem : Formulas :=
  giving (itemOf 0 false "a" "given")

/-- The graph of an item and an owner that were settled. -/
def settledPair : Graph :=
  (settle givingItem).after (newPair givingItem (itemOf 0 false "b" "1"))

/-- The graph where the item was changed since. -/
def changedPair : Graph :=
  (Operation.absorb (itemOf 0 false "b" "2") none).apply givingItem settledPair

/-- An item that is changed between two settles is reported once, with its snapshots after the first and after the
second settle. -/
theorem settle_reports_item : ∃ diff g' first last c, settle givingItem changedPair = .ok diff g' ∧
    settledPair.cached? ⟨0, 0⟩ = some first ∧ g'.cached? ⟨0, 0⟩ = some last ∧ first.equals .state last = false ∧
    diff.toList.filter (fun c => c.is.key = last.key) = [c] ∧
    (∃ was, c.was = some was ∧ first.equals .state was = true) ∧ c.is.equals .state last = true := by
  have computed : (((settle givingItem).run' (newPair givingItem (itemOf 0 false "b" "1"))).isSome = true ∧
      ((settle givingItem).run' changedPair).isSome = true) ∧
      (∀ h ∈ [changedPair, settledPair], h.contains ⟨0, 0⟩ = true) ∧
      (∀ h ∈ roundStarts givingItem changedPair.maxRounds changedPair, h.contains ⟨0, 0⟩ = true) ∧
      ((settle givingItem).after changedPair).contains ⟨0, 0⟩ = true ∧
      ((settledPair.cached? ⟨0, 0⟩).bind fun first => (((settle givingItem).after changedPair).cached? ⟨0, 0⟩).map
        fun last => first.equals .state last) = some false := by decide +kernel
  obtain ⟨⟨succeeds, succeeds'⟩, since, throughout, there, changes⟩ := computed
  obtain ⟨diff₀, run₀⟩ := Option.isSome_iff_exists.mp succeeds
  obtain ⟨diff, run₁⟩ := Option.isSome_iff_exists.mp succeeds'
  have start : RunSince givingItem ownerSchema (Knowing givingItem ownerSchema ownerSchema.ownsField
      (Flat [itemOf 0 false "b" "1", itemOf 0 false "b" "2", newOwner, itemOf 0 false "a" "given"])) _ _ _ :=
    .start defaultRounds
  have run : RunSince _ _ _ settledPair [changedPair, settledPair] changedPair :=
    (((start.call (.absorb (itemOf 0 false "b" "1") none) nofun (by decide +kernel)).call
      (.absorb newOwner none) nofun (by decide +kernel)).settle givingItem.contextual (by decide +kernel)
      (eq_ok_of_run' run₀)).call (.absorb (itemOf 0 false "b" "2") none) nofun (by decide +kernel)
  have settled := eq_ok_of_run' run₁
  obtain ⟨last, cached, -, once, -, old, leads⟩ := run.settle_reports compile_owner identifiesPlainly_owner
    (keysTellIdentities_flat (by decide +kernel)) (keepOwn_giving _ ownerSchema) (by decide +kernel) settled
    (since changedPair mem_cons_self) throughout there
  obtain ⟨first, before, reported⟩ := old since
  rw [before, cached] at changes
  have differs : first.equals .state last = false := Option.some.inj changes
  obtain ⟨c, member, named, was⟩ := reported differs
  refine ⟨diff, _, first, last, c, settled, before, cached, differs, ?_, was, leads c member named⟩
  -- The only change of the item is this one.
  have among : c ∈ diff.toList.filter fun c => c.is.key = last.key := by simp [member, named]
  obtain ⟨c', only⟩ := length_eq_one_iff.mp (Nat.le_antisymm once (length_pos_of_mem among))
  rw [only, mem_singleton] at among
  rw [only, among]

/-- The formulas that give every owner an item of another schema, where items are known by their notes. -/
def givingForeign : Formulas :=
  giving (itemOf 1 true "a" "other")

/-- The graph of an item and an owner that gets such an item. -/
def foreignPair : Graph :=
  newPair givingForeign (itemOf 0 false "a" "own")

/-- An item of another schema makes a second node whose snapshot has the key of the first one, and the one change of
both leads to the snapshot of the second. -/
theorem not_settle_reports : ¬ ∀ (serial : Nat) (d : Declarations) (s : Schema) (F : Formulas)
    (known : Record → Prop) (g₀ g g' : Graph) (seen : List Graph) (diff : Diff) (id : NodeId),
    Schema.compile serial d = .ok s → s.IdentifiesPlainly → KeysTellIdentities known →
    F.KeepOwn s → RunSince F s (Knowing F s (fun _ => true) known) g₀ seen g →
    Knowing F s (fun _ => true) known g (.settle F.contextual) → settle F g = .ok diff g' →
    g.contains id = true → (∀ h ∈ roundStarts F g.maxRounds g, h.contains id = true) →
    g'.contains id = true → ∀ last, g'.cached? id = some last →
    ∀ c ∈ diff.toList, c.is.key = last.key → c.is.equals .state last = true := by
  intro claim
  have start : RunSince givingForeign ownerSchema (Knowing givingForeign ownerSchema (fun _ => true)
      (Flat [itemOf 0 false "a" "own", newOwner, itemOf 1 true "a" "other"])) _ _ _ := .start defaultRounds
  have run : RunSince _ _ _ _ _ foreignPair :=
    (start.call (.absorb (itemOf 0 false "a" "own") none) nofun (by decide +kernel)).call (.absorb newOwner none) nofun
      (by decide +kernel)
  have computed : (foreignPair.contains ⟨0, 0⟩ = true ∧
      (∀ h ∈ roundStarts givingForeign foreignPair.maxRounds foreignPair, h.contains ⟨0, 0⟩ = true) ∧
      ((settle givingForeign).after foreignPair).contains ⟨0, 0⟩ = true) ∧
      (((settle givingForeign).run' foreignPair).bind fun diff =>
        (((settle givingForeign).after foreignPair).cached? ⟨0, 0⟩).map fun last =>
          diff.toList.all fun c => c.is.key ≠ last.key || c.is.equals .state last) = some false := by
    decide +kernel
  obtain ⟨⟨here, throughout, there⟩, reported⟩ := computed
  obtain ⟨diff, run', rest⟩ := Option.bind_eq_some_iff.mp reported
  obtain ⟨last, cached, differs⟩ := Option.map_eq_some_iff.mp rest
  have same := claim 0 ownerDeclarations ownerSchema _ _ _ _ _ _ diff ⟨0, 0⟩ compile_owner identifiesPlainly_owner
    (keysTellIdentities_flat (by decide +kernel)) (keepOwn_giving _ ownerSchema) run (by decide +kernel)
    (eq_ok_of_run' run') here throughout there last cached
  -- One of the changes has the key of the item and leads elsewhere.
  obtain ⟨c, member, failed⟩ := all_eq_false.mp differs
  simp only [ne_eq, Bool.or_eq_true, decide_eq_true_eq, not_or, not_not] at failed
  exact failed.2 (same c member failed.1)

end Graph

end EntityGraph
