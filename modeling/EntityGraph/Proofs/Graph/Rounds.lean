import EntityGraph.Proofs.Graph.Snapshots

/-! The parts of a round: changed nodes are built, results derived, and the results stored. What holds where every round
starts holds where settling ends. -/

namespace EntityGraph.Graph

open List

open Step

/-- What becomes of a node that is built again: a change, unless its snapshot is as it was. -/
def changeOf? (id : NodeId) (was : Option Record) (is : Record) : Option Changed :=
  if was.any fun w => w.equals .state is then none else some ⟨id, ⟨was, is⟩⟩

/-- What building the given nodes again leaves: their snapshots are cached and their evicted ones given out, and the
nodes that changed are listed with both. -/
structure Rebuilt (F : Formulas) (g : Graph) (ids : List NodeId) (changed : List Changed) (g' : Graph) : Prop
    extends Quiet g g' where
  twins : Twins g g'
  kept : ∀ j r, g.cached? j = some r → g'.cached? j = some r
  built : ∀ id ∈ ids, g.contains id = true → (g'.cached? id).isSome = true
  previous : ∀ j, g'.previous? j = if j ∈ ids then none else g.previous? j
  changes : ids.Nodup → changed = ids.filterMap fun id =>
    (g'.cached? id).bind fun is => changeOf? id (g.previous? id) is
  live : ∀ c ∈ changed, g'.contains c.id = true
  snapshots : Leafy g → ∀ right, Transmits F right → Snapshots right g → Snapshots right g'
  closed : Leafy g → SnapshotsClosed g → SnapshotsClosed g'
  lasting : ∀ holds, Lasting F holds → Nodes holds g → Nodes holds g'

theorem id_of_changeOf? {id : NodeId} {was : Option Record} {is : Record} {c : Changed}
    (listed : changeOf? id was is = some c) : c.id = id := by
  unfold changeOf? at listed
  split at listed
  · cases listed
  · cases listed
    rfl

theorem cached?_takePrevious (g : Graph) (id j : NodeId) : (g.takePrevious id).2.cached? j = g.cached? j :=
  bind_node?_update g id (fun n => { n with previous := none }) Node.cached (fun _ => rfl) j

theorem previous?_takePrevious (g : Graph) (id j : NodeId) :
    (g.takePrevious id).2.previous? j = if j = id then none else g.previous? j := by
  simp only [takePrevious, previous?, node?_update]
  split
  · cases g.node? id <;> rfl
  · rfl

/-- Nodes that have no links still have none while only snapshots change. -/
theorem Leafy.quiet {g g' : Graph} (leafy : Leafy g) (quiet : Quiet g g') : Leafy g' := by
  intro id n live leaf
  obtain ⟨m, there, core⟩ := quiet.cores.symm.exists_live live
  have layout : m.layout = n.layout := by simpa [Node.core] using congrArg Node.layout core
  have fields : m.fields = n.fields := by simpa [Node.core] using congrArg Node.fields core
  have none := leafy id m there (by rw [layout]; exact leaf)
  rwa [Node.links, fields] at none

theorem Quiet.content {g g' : Graph} (quiet : Quiet g g') (j : NodeId) :
    (g'.node? j).map Node.content = (g.node? j).map Node.content :=
  quiet.cores.map Node.content (fun _ => rfl) j

namespace Rebuilt

variable {F : Formulas} {g g₂ g' : Graph} {id : NodeId} {rest : List NodeId} {others : List Changed} {is : Record}

/-- Nothing is built again. -/
theorem nil (F : Formulas) (g : Graph) : Rebuilt F g [] [] g :=
  ⟨.refl g, .refl g, fun _ _ found => found, by simp, by simp, by simp, by simp, fun _ _ _ snapshots => snapshots,
    fun _ closed => closed, fun _ _ nodes => nodes⟩

/-- A node that is gone by now is passed. -/
theorem pass (later : Rebuilt F g rest others g') (dead : ¬ g.contains id = true) :
    Rebuilt F g (id :: rest) others g' := by
  have gone : ∀ {g' : Graph}, Quiet g g' → g'.node? id = none := by
    intro g' quiet
    rw [← quiet.cores.contains] at dead
    simpa [contains] using dead
  have absent : g'.cached? id = none := by simp [cached?, gone later.toQuiet]
  have absent' : g.previous? id = none := by simp [previous?, gone (.refl g)]
  refine ⟨later.toQuiet, later.twins, later.kept, fun j member there => ?_, fun j => ?_, fun once => ?_,
    later.live, later.snapshots, later.closed, later.lasting⟩
  · rcases mem_cons.mp member with rfl | after
    · exact absurd there dead
    · exact later.built j after there
  · rw [later.previous]
    by_cases same : j = id
    · simp [same, absent']
    · simp [same]
  · rw [nodup_cons] at once
    rw [later.changes once.2, filterMap_cons, absent]
    rfl

/-- A live node gives out its evicted snapshot and is built, and then the others are. -/
theorem cons (live : g.contains id = true) (built : Built F (g.takePrevious id).2 id is g₂)
    (later : Rebuilt F g₂ rest others g') :
    Rebuilt F g (id :: rest) ((changeOf? id (g.previous? id) is).toList ++ others) g' := by
  have taken := Quiet.takePrevious g id
  have quiet₂ := taken.trans built.toQuiet
  have quiet₃ := quiet₂.trans later.toQuiet
  have twins : Twins g (g.takePrevious id).2 := .update g id fun _ => rfl
  have snapshot : g'.cached? id = some is := later.kept id is built.here
  have previous₂ : ∀ j, g₂.previous? j = if j = id then none else g.previous? j := fun j => by
    rw [built.previous, previous?_takePrevious]
  refine ⟨quiet₃, twins.trans (built.twins.trans later.twins), fun j r found => later.kept j r (built.kept j r ?_),
    fun j member there => ?_, fun j => ?_, fun once => ?_, fun c member => ?_,
    fun leafy right transmits snapshots => ?_, fun leafy closed => ?_,
    fun holds lasting nodes =>
      later.lasting holds lasting (built.lasting holds lasting (nodes.takePrevious lasting id))⟩
  · rwa [cached?_takePrevious]
  · rcases mem_cons.mp member with rfl | after
    · rw [snapshot]
      rfl
    · exact later.built j after (by rw [quiet₂.cores.contains]; exact there)
  · rw [later.previous, previous₂]
    by_cases same : j = id
    · simp [same]
    · simp [same]
  · -- Whether the node is listed depends on its snapshots before and after; the others follow.
    rw [nodup_cons] at once
    have same : others = rest.filterMap fun id => (g'.cached? id).bind fun is => changeOf? id (g.previous? id) is := by
      rw [later.changes once.2]
      refine filterMap_congr fun j member => ?_
      rw [previous₂, if_neg]
      rintro rfl
      exact once.1 member
    rw [filterMap_cons, snapshot, Option.bind_some, same]
    cases changeOf? id (g.previous? id) is <;> rfl
  · rcases mem_append.mp member with own | other
    · rw [id_of_changeOf? (Option.mem_toList.mp own), quiet₃.cores.contains]
      exact live
    · exact later.live c other
  · refine later.snapshots (leafy.quiet quiet₂) right transmits
      (built.snapshots (leafy.quiet taken) right transmits ?_)
    exact transmits.congr taken.content taken.cores.keyOf (cached?_takePrevious g id) snapshots
  · refine later.closed (leafy.quiet quiet₂) (built.closed (leafy.quiet taken) ?_)
    exact closed.congr taken.content (cached?_takePrevious g id)

end Rebuilt

/-- Nodes are built again without a failure. -/
theorem Sound.rebuilt {g : Graph} (sound : Sound g) (F : Formulas) (ids : List NodeId) :
    Ends (Graph.rebuild F ids) g (fun changed g' => Rebuilt F g ids changed g') fun _ _ => False := by
  induction ids generalizing g with
  | nil => exact .nil F g
  | cons id rest ih =>
    rw [Graph.rebuild]
    refine Ends.bind ?_
    change Ends (if g.contains id then _ else _) g _ _
    split
    · rename_i live
      have taken := Quiet.takePrevious g id
      have live₁ : (g.takePrevious id).2.contains id = true := by rw [taken.cores.contains]; exact live
      refine Ends.bind ?_
      change Ends _ (g.takePrevious id).2 _ _
      refine Ends.bind (((sound.quiet taken).built F live₁).mono ?_ fun _ _ => False.elim)
      intro is g₂ built
      refine Ends.bind ((ih (sound.quiet (taken.trans built.toQuiet))).mono ?_ fun _ _ => False.elim)
      intro others g₃ later
      -- The change is left out if the snapshot is as it was.
      have frame := later.cons live built
      change Ends (if (g.previous? id).any _ then _ else _) g₃ _ _
      split
      · rename_i same
        rw [changeOf?, if_pos same] at frame
        exact frame
      · rename_i differs
        rw [changeOf?, if_neg differs] at frame
        exact frame
    · rename_i dead
      exact (ih sound).mono (fun _ _ later => later.pass dead) fun _ _ => False.elim

theorem Task.lt_trans (a b c : Task) (first : Task.lt a b = true) (second : Task.lt b c = true) :
    Task.lt a c = true := by
  simp only [Task.lt, Bool.or_eq_true, Bool.and_eq_true, beq_iff_eq, decide_eq_true_eq] at first second ⊢
  rcases first with before | ⟨same, before⟩
  · rcases second with after | ⟨same', -⟩
    · exact Or.inl (NodeId.lt_trans before after)
    · exact Or.inl (same' ▸ before)
  · rcases second with after | ⟨same', after⟩
    · exact Or.inl (same ▸ after)
    · exact Or.inr ⟨same.trans same', before.trans after⟩

/-- The field that a task is about is one that a formula of the node's type derives. -/
def Task.IsContextual (g : Graph) (t : Task) : Prop :=
  ∃ n info formula, g.node? t.id = some n ∧ n.layout.fields[t.field]? = some info ∧
    info.derivation = some (.contextual formula)

theorem Task.IsContextual.quiet {g g' : Graph} {t : Task} (contextual : t.IsContextual g) (quiet : Quiet g g') :
    t.IsContextual g' := by
  obtain ⟨n, info, formula, live, field, derived⟩ := contextual
  obtain ⟨n', live', core⟩ := quiet.cores.exists_live live
  have layout : n'.layout = n.layout := by simpa [Node.core] using congrArg Node.layout core
  exact ⟨n', info, formula, live', by rw [layout]; exact field, derived⟩

/-- What is derived for a node with a snapshot is a contextual field of the node. -/
theorem isContextual_of_derive? {F : Formulas} {g : Graph} {t : Task} {current : Record} {diff : Diff}
    {find : Record → Option Record} {allOf : String → List Record} {f : Field Value} (shaped : Nodes Node.Shaped g)
    (snapshot : g.cached? t.id = some current)
    (derived : Context.derive? F current t.field diff find allOf = some f) : t.IsContextual g := by
  obtain ⟨n, live, cached⟩ := Option.bind_eq_some_iff.mp snapshot
  rw [Context.derive?, (shaped t.id n live).cached current cached] at derived
  cases field : n.layout.fields[t.field]? with
  | none => simp [field] at derived
  | some info =>
    simp only [field] at derived
    split at derived
    · rename_i formula same
      exact ⟨n, info, formula, live, field, same⟩
    · cases derived

/-- Fields of live nodes are derived without a failure, which at most builds nodes. -/
theorem Sound.derives {g : Graph} (sound : Sound g) (F : Formulas) (diff : Diff) {ts : List Task}
    (live : AllLive g (ts.map Task.id)) :
    Ends (Graph.deriveTasks F diff ts) g
      (fun results g' => Fills g g' ∧ (results.map Prod.fst).Sublist ts ∧
        (Leafy g → Fresh F g → Fresh F g') ∧
        (Leafy g → ∀ right, Transmits F right → Snapshots right g → Snapshots right g') ∧
        (∀ holds, Lasting F holds → Nodes holds g → Nodes holds g') ∧
        (Nodes Node.Shaped g → ∀ e ∈ results, e.1.IsContextual g')) fun _ _ => False := by
  induction ts generalizing g with
  | nil =>
    exact ⟨.refl g, by simp, fun _ fresh => fresh, fun _ _ _ snapshots => snapshots, fun _ _ nodes => nodes, by simp⟩
  | cons t rest ih =>
    rw [Graph.deriveTasks]
    refine Ends.bind ((sound.built F (live t.id (by simp))).mono ?_ fun _ _ => False.elim)
    intro current g₁ built
    refine Ends.bind ?_
    have live₁ : AllLive g₁ (rest.map Task.id) := AllLive.quiet (fun j member => live j (by
      rw [map_cons]
      exact mem_cons_of_mem _ member)) built.toQuiet
    refine Ends.bind ((ih (sound.quiet built.toQuiet) live₁).mono ?_ fun _ _ => False.elim)
    rintro others g₂ ⟨fills, among, fresh₂, snapshots₂, lasting₂, contextual₂⟩
    refine ⟨built.toFills.trans fills, ?_, fun leafy fresh =>
      fresh₂ (leafy.quiet built.toQuiet) (fresh.built leafy built), fun leafy right transmits snapshots =>
      snapshots₂ (leafy.quiet built.toQuiet) right transmits (built.snapshots leafy right transmits snapshots),
      fun holds lasting nodes =>
      lasting₂ holds lasting (built.lasting holds lasting nodes), fun shaped => ?_⟩
    · split
      · exact among.cons_cons t
      · exact among.cons t
    · have shaped₁ := built.lasting _ (Node.Shaped.lasting F) shaped
      split
      · rename_i f derived
        intro e member
        rcases mem_cons.mp member with rfl | later
        · exact (isContextual_of_derive? shaped₁ built.here derived).quiet fills.toQuiet
        · exact contextual₂ shaped₁ e later
      · exact contextual₂ shaped₁

theorem nodup_of_tasks {g : Graph} {diff : Diff} {changed : List Changed} {ts : List Task}
    (asked : g.tasks diff changed = .ok ts) : ts.Nodup := by
  obtain ⟨tss, -, same⟩ := Except.bind_eq_ok.mp asked
  cases same
  have sorted := Ordered.pairwise_ofList Task.lt_trans tss.flatten
  exact sorted.imp fun {a b} before same => by simp [same, Task.lt, NodeId.lt_irrefl] at before

/-- The first part of a round: changed nodes are built, and what reacts to them is derived. -/
def derivations (F : Formulas) : Step (Diff × List (Task × Field Value)) := do
  let ids ← modifyGet fun g => (g.changed, { g with changed := [] })
  let changed ← rebuild F ids
  let diff := (changed.map Changed.change).foldl Diff.push Diff.empty
  let ts ← Step.ask fun g => g.tasks diff changed
  let results ← deriveTasks F diff ts
  return (diff, results)

theorem round_eq (F : Formulas) :
    round F = do
      let out ← derivations F
      storeResults out.2
      modify sweep
      return out.1 := by
  simp only [round, derivations, bind_assoc, pure_bind]

/-- What the first part of a round leaves: all changes are built and listed, and nothing is queued. -/
structure Derived (F : Formulas) (g : Graph) (diff : Diff) (results : List (Task × Field Value)) (g' : Graph) :
    Prop extends Quiet g g' where
  twins : Twins { g with changed := [] } g'
  kept : ∀ j r, g.cached? j = some r → g'.cached? j = some r
  built : ∀ id ∈ g.changed, g.contains id = true → (g'.cached? id).isSome = true
  previous : ∀ j, g'.previous? j = if j ∈ g.changed then none else g.previous? j
  changes : g.changed.Nodup → diff = ((g.changed.filterMap fun id =>
    (g'.cached? id).bind fun is => changeOf? id (g.previous? id) is).map Changed.change).foldl Diff.push Diff.empty
  live : ∀ e ∈ results, g'.contains e.1.id = true
  once : (results.map Prod.fst).Nodup
  contextual : Nodes Node.Shaped g → ∀ e ∈ results, e.1.IsContextual g'
  fresh : Leafy g → Fresh F g → Fresh F g'
  snapshots : Leafy g → ∀ right, Transmits F right → Snapshots right g → Snapshots right g'
  lasting : ∀ holds, Lasting F holds → Nodes holds g → Nodes holds g'

/-- The first part of a round does not fail. -/
theorem Sound.derived {g : Graph} (sound : Sound g) (F : Formulas) :
    Ends (derivations F) g (fun out g' => Derived F g out.1 out.2 g') fun _ _ => False := by
  unfold derivations
  refine Ends.bind ?_
  change Ends _ { g with changed := [] } _ _
  have emptied : Quiet g { g with changed := [] } := .pending g _ _ _
  have sound₁ := sound.quiet emptied
  refine Ends.bind ((sound₁.rebuilt F g.changed).mono ?_ fun _ _ => False.elim)
  intro changed g₂ rebuilt
  have quiet₂ := emptied.trans rebuilt.toQuiet
  have sound₂ := sound.quiet quiet₂
  -- The nodes that changed are live, and so are those that react to them.
  have live₂ : AllLive g₂ (changed.map Changed.id) := by simpa [AllLive] using rebuilt.live
  obtain ⟨ts, asked, live₃⟩ := sound₂.tasks_ok ((changed.map Changed.change).foldl Diff.push Diff.empty) live₂
  refine Ends.bind (Ends.ask asked ?_)
  refine Ends.bind ((sound₂.derives F _ live₃).mono ?_ fun _ _ => False.elim)
  rintro results g₃ ⟨fills, among, fresh₃, snapshots₃, lasting₃, contextual₃⟩
  have snapshots : ∀ id ∈ g.changed, g₃.cached? id = g₂.cached? id := by
    intro id queued
    by_cases live : g.contains id = true
    · obtain ⟨r, found⟩ := Option.isSome_iff_exists.mp (rebuilt.built id queued live)
      rw [fills.kept id r found, found]
    · have dead : ∀ {g' : Graph}, Quiet g g' → g'.cached? id = none := by
        intro g' quiet
        rw [← quiet.cores.contains] at live
        simp only [contains, Option.isSome_iff_ne_none, ne_eq, not_not] at live
        simp [cached?, live]
      rw [dead (quiet₂.trans fills.toQuiet), dead quiet₂]
  refine ⟨quiet₂.trans fills.toQuiet, rebuilt.twins.trans fills.twins,
    fun j r found => fills.kept j r (rebuilt.kept j r found),
    fun id queued live => fills.isSome (rebuilt.built id queued live), fun j => ?_, fun once => ?_, fun e member => ?_,
    (nodup_of_tasks asked).sublist among, fun shaped => ?_, fun leafy fresh => ?_,
    fun leafy right transmits snapshots => ?_, fun holds lasting nodes =>
      lasting₃ holds lasting (rebuilt.lasting holds lasting nodes)⟩
  · rw [fills.previous, rebuilt.previous]
    rfl
  · rw [rebuilt.changes once]
    refine congrArg (fun changed : List Changed => (changed.map Changed.change).foldl Diff.push Diff.empty) ?_
    refine filterMap_congr fun id queued => ?_
    rw [snapshots id queued]
    rfl
  · rw [fills.cores.contains]
    exact live₃ _ (mem_map_of_mem (among.subset (mem_map_of_mem member)))
  · exact contextual₃ (rebuilt.lasting _ (Node.Shaped.lasting F) shaped)
  · -- What was queued is built, so that every live node has its snapshot.
    have leafy₁ := leafy.quiet emptied
    have pending : Pending g₂ g₂.changed := by
      intro j live lacks
      rw [quiet₂.cores.contains] at live
      by_cases before : g.cached? j = none
      · have built := rebuilt.built j (fresh.pending j live before) live
        rw [lacks] at built
        cases built
      · obtain ⟨r, found⟩ := Option.ne_none_iff_exists'.mp before
        rw [rebuilt.kept j r found] at lacks
        cases lacks
    have coherent₁ := fresh.coherent.congr emptied.content fun _ => rfl
    exact fresh₃ (leafy.quiet quiet₂) ⟨rebuilt.snapshots leafy₁ _ (.unfolds F) coherent₁,
      rebuilt.closed leafy₁ fresh.closed, pending⟩
  · refine snapshots₃ (leafy.quiet quiet₂) right transmits
      (rebuilt.snapshots (leafy.quiet emptied) right transmits ?_)
    exact transmits.congr emptied.content emptied.cores.keyOf (fun _ => rfl) snapshots

/-- The results that a round derives from a graph. -/
def derivedAt (F : Formulas) (g : Graph) : List (Task × Field Value) :=
  match derivations F g with
  | .ok out _ => out.2
  | .error _ _ => []

/-- A round of a sound graph derives results in one graph and stores them there. It ends with the sweep of what has all
of them, or with a first part of them where a record is refused. -/
theorem Sound.round_parts {g : Graph} (sound : Sound g) (F : Formulas) :
    ∃ diff g₁, Derived F g diff (derivedAt F g) g₁ ∧ Sound g₁ ∧ Ends (Graph.round F) g
      (fun diff' g' => diff' = diff ∧ ∃ merged,
        Performs (Acts.ofResults g₁.schema g₁.keyOf (derivedAt F g)) g₁ merged ∧ g' = merged.sweep)
      (fun e g' => e.Refuses ∧ ∃ done, done <+: Acts.ofResults g₁.schema g₁.keyOf (derivedAt F g) ∧
        Performs done g₁ g') := by
  have ends := sound.derived F
  unfold Ends at ends
  cases result : derivations F g with
  | error e g' => rw [result] at ends; cases ends
  | ok out g₁ =>
    rw [result] at ends
    have same : derivedAt F g = out.2 := by rw [derivedAt, result]
    have sound₁ := sound.quiet ends.toQuiet
    refine ⟨out.1, g₁, same ▸ ends, sound₁, ?_⟩
    rw [round_eq, same]
    refine Ends.bind ?_
    simp only [Ends, result]
    -- The results are stored, and then the garbage removed.
    have stored := storeResults_traces sound₁ fun e member => sound₁.toArena.find?_keyOf (ends.live e member)
    refine Ends.bind (Ends.mono stored ?_ fun _ _ failed => failed)
    rintro _ merged ⟨performs, -⟩
    exact ⟨rfl, merged, performs, rfl⟩

/-- A round of a sound graph leaves a sound graph, and only fails where a record is refused. -/
theorem Sound.round {g : Graph} (sound : Sound g) (F : Formulas) :
    Ends (Graph.round F) g (fun _ g' => Sound g') fun e g' => Sound g' ∧ e.Refuses := by
  obtain ⟨diff, g₁, -, sound₁, ends⟩ := sound.round_parts F
  refine ends.mono ?_ ?_
  · rintro _ g' ⟨-, merged, performs, rfl⟩
    exact (performs.sound sound₁).1.sweep.sound
  · rintro e g' ⟨refuses, done, -, performs⟩
    exact ⟨(performs.sound sound₁).1, refuses⟩

/-- The graphs where the rounds of a run start, as long as some are left. -/
def roundStarts (F : Formulas) : Nat → Graph → List Graph
  | 0, _ => []
  | left + 1, g =>
    if g.changed.isEmpty then []
    else g :: match round F g with
      | .ok _ g' => roundStarts F left g'
      | .error _ _ => []

theorem mem_roundStarts_self {F : Formulas} {left : Nat} {g : Graph} :
    g ∈ roundStarts F left g ↔ left ≠ 0 ∧ g.changed.isEmpty = false := by
  cases left with
  | zero => simp [roundStarts]
  | succ left =>
    unfold roundStarts
    split
    · rename_i settled
      simp [settled]
    · rename_i queued
      simpa using queued

/-- What every round keeps of the changes and the graph is kept by settling. If that succeeds, every round did, and
nothing is queued. If it fails, rounds have run out, or one failed. -/
theorem settle_runs {F : Formulas} {g : Graph} {holds : Diff → Graph → Prop} (start : holds Diff.empty g)
    (step : ∀ h ∈ roundStarts F g.maxRounds g, ∀ total, holds total h →
      Ends (round F) h (fun diff h' => holds (total.merge diff) h') fun _ _ => True) :
    Ends (settle F) g
      (fun diff g' => holds diff g' ∧ g'.changed = [] ∧ ∀ h ∈ roundStarts F g.maxRounds g,
        (∃ total, holds total h) ∧ ∃ diff h', round F h = .ok diff h')
      fun e g' => (e = .unsettled g'.maxRounds ∧ ∃ total, holds total g') ∨
        ∃ h ∈ roundStarts F g.maxRounds g, (∃ total, holds total h) ∧ round F h = .error e g' := by
  -- By induction on the rounds that are left.
  have general : ∀ (left : Nat) (total : Diff) (g : Graph), holds total g →
      (∀ h ∈ roundStarts F left g, ∀ total, holds total h →
        Ends (round F) h (fun diff h' => holds (total.merge diff) h') fun _ _ => True) →
      Ends (rounds F left total) g
        (fun diff g' => holds diff g' ∧ g'.changed = [] ∧ ∀ h ∈ roundStarts F left g,
          (∃ total, holds total h) ∧ ∃ diff h', round F h = .ok diff h')
        fun e g' => (e = .unsettled g'.maxRounds ∧ ∃ total, holds total g') ∨
          ∃ h ∈ roundStarts F left g, (∃ total, holds total h) ∧ round F h = .error e g' := by
    intro left
    induction left with
    | zero =>
      intro total g start _
      rw [rounds]
      refine Ends.bind ?_
      change Ends (if g.changed.isEmpty then _ else _) g _ _
      split
      · rename_i settled
        exact ⟨start, by simpa using settled, by simp [roundStarts]⟩
      · exact Ends.throw (Or.inl ⟨rfl, total, start⟩)
    | succ left ih =>
      intro total g start step
      rw [rounds]
      refine Ends.bind ?_
      change Ends (if g.changed.isEmpty then _ else _) g _ _
      split
      · rename_i settled
        exact ⟨start, by simpa using settled, by simp [roundStarts, settled]⟩
      · rename_i queued
        have here : g ∈ roundStarts F (left + 1) g := by simp [roundStarts, queued]
        have ends := step g here total start
        refine Ends.bind ?_
        unfold Ends at ends ⊢
        cases result : round F g with
        | error e g' => exact Or.inr ⟨g, here, ⟨total, start⟩, result⟩
        | ok diff g' =>
          rw [result] at ends
          have starts : roundStarts F (left + 1) g = g :: roundStarts F left g' := by
            simp only [roundStarts, queued, Bool.false_eq_true, if_false, result]
          rw [starts] at step ⊢
          refine (ih (total.merge diff) g' ends fun h member => step h (.tail _ member)).mono ?_ ?_
          · rintro diff' g'' ⟨held, rested, each⟩
            refine ⟨held, rested, fun h member => ?_⟩
            rcases mem_cons.mp member with rfl | later
            · exact ⟨⟨total, start⟩, diff, g', result⟩
            · exact each h later
          · rintro e g'' (ended | ⟨h, member, held⟩)
            · exact Or.inl ended
            · exact Or.inr ⟨h, mem_cons_of_mem _ member, held⟩
  exact Ends.bind (general g.maxRounds Diff.empty g start step)

/-- What every round keeps, and leaves if it fails, is kept by settling. -/
theorem settle_keeps {F : Formulas} {g : Graph} {holds : Diff → Graph → Prop} {failed : Graph → Prop}
    (start : holds Diff.empty g) (stop : ∀ total h, holds total h → failed h)
    (step : ∀ h ∈ roundStarts F g.maxRounds g, ∀ total, holds total h →
      Ends (round F) h (fun diff h' => holds (total.merge diff) h') fun _ h' => failed h') :
    Ends (settle F) g
      (fun diff g' => holds diff g' ∧ g'.changed = [] ∧ ∀ h ∈ roundStarts F g.maxRounds g,
        (∃ total, holds total h) ∧ ∃ diff h', round F h = .ok diff h')
      fun _ g' => failed g' := by
  refine (settle_runs start fun h member total held => ?_).mono (fun _ _ done => done) ?_
  · exact (step h member total held).mono (fun _ _ kept => kept) fun _ _ _ => trivial
  · rintro e g' (⟨-, total, held⟩ | ⟨h, member, ⟨total, held⟩, result⟩)
    · exact stop total g' held
    · have ends := step h member total held
      rwa [Ends, result] at ends

/-- Settling a sound graph leaves a sound graph, and does not fail for a dead handle. -/
theorem Sound.settle {g : Graph} (sound : Sound g) (F : Formulas) :
    Ends (Graph.settle F) g (fun _ g' => Sound g') fun e g' => Sound g' ∧ ∀ id, e ≠ .unknownNode id := by
  have runs := @settle_runs F g (fun _ h => Sound h) sound fun h _ _ sound' =>
    (sound'.round F).mono (fun _ _ kept => kept) fun _ _ _ => trivial
  refine runs.mono (fun _ _ done => done.1) ?_
  rintro e g' (⟨rfl, -, sound'⟩ | ⟨h, -, ⟨-, sound'⟩, failed⟩)
  · -- Changes that are left after the last round are an error of their own.
    exact ⟨sound', fun id => by simp⟩
  · have ends := sound'.round F
    rw [Ends, failed] at ends
    exact ⟨ends.1, ends.2.ne_unknownNode⟩

end EntityGraph.Graph
