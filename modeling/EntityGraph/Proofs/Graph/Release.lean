import EntityGraph.Proofs.Graph.Handles
import EntityGraph.Proofs.Graph.Queue
import Mathlib.Order.Bounds.Basic

/-! Letting a node go: which nodes go with it, what is left of the others, and that it makes no difference in which
order the orphans are looked at. -/

namespace EntityGraph

open List

namespace Node

variable {count : NodeId → Nat} {n : Node}

/-- The node without the links that come from the given ones. -/
def without (gone : List NodeId) (n : Node) : Node :=
  { n with parents := n.parents.filter fun e => e.1 ∉ gone }

@[simp] theorem without_nil (n : Node) : n.without [] = n := by
  simp [without]

theorem without_without (gone gone' : List NodeId) (n : Node) :
    (n.without gone).without gone' = n.without (gone ++ gone') := by
  simp [without, filter_filter, Bool.and_comm]

theorem Counts.of_mem (counts : n.Counts count) {e : NodeId × Nat} (member : e ∈ n.parents) :
    e.2 = count e.1 ∧ count e.1 ≠ 0 := by
  have found := lookup_of_mem counts.once member
  rw [counts.entry] at found
  split at found
  · cases found
  · rename_i positive
    exact ⟨(Option.some.inj found).symm, positive⟩

/-- One link less from a node leaves the entries of all others. -/
theorem Counts.without_dropParent (counts : n.Counts count) (parent : NodeId) :
    (n.dropParent parent).without [parent] = n.without [parent] := by
  have positive : ∀ e ∈ n.parents, e.2 ≠ 0 := by
    intro e member
    obtain ⟨same, positive⟩ := counts.of_mem member
    rwa [same]
  -- Only entries of this parent become zero and are dropped.
  have entries : ∀ table : List (NodeId × Nat), (∀ e ∈ table, e.2 ≠ 0) →
      ((table.map fun e => if e.1 = parent then (e.1, e.2 - 1) else e).filter fun e => e.2 != 0).filter
        (fun e => e.1 ∉ [parent]) = table.filter fun e => e.1 ∉ [parent] := by
    intro table
    induction table with
    | nil => exact fun _ => rfl
    | cons e rest ih =>
      intro positive
      have others := ih fun e later => positive e (.tail _ later)
      by_cases own : e.1 = parent
      · by_cases last : e.2 - 1 = 0
        · simpa [own, last] using others
        · simpa [own, last] using others
      · simpa [own, positive e mem_cons_self] using others
  simp only [without, Node.dropParent, entries n.parents positive]

/-- A node that the given one does not link to has no entry of it. -/
theorem Counts.without_self (counts : n.Counts count) {parent : NodeId} (none : count parent = 0) :
    n.without [parent] = n := by
  have kept : n.parents.filter (fun e => e.1 ∉ [parent]) = n.parents := by
    rw [filter_eq_self]
    intro e member
    refine decide_eq_true fun own => (counts.of_mem member).2 ?_
    rw [mem_singleton.mp own]
    exact none
  rw [without, kept]

end Node

namespace Graph

open Step

variable {g : Graph}

/-- Dropping links of a node leaves all entries that are not its own. -/
theorem Counted.without_unlinks {count : NodeId → NodeId → Nat} (counted : Counted g count) (parent : NodeId)
    (cs : List NodeId) (j : NodeId) :
    ((cs.foldl (Graph.unlink parent) g).node? j).map (Node.without [parent]) =
      (g.node? j).map (Node.without [parent]) := by
  induction cs generalizing g count with
  | nil => rfl
  | cons child rest ih =>
    rw [foldl_cons, ih (counted.unlink parent child), node?_unlink]
    split
    · rename_i same
      subst same
      cases live : g.node? j with
      | none => rfl
      | some n => simp [(counted j n live).without_dropParent parent]
    · rfl

/-- Collecting garbage takes the entries of the collected node from all tables, and changes nothing else in any node. -/
theorem Sound.node?_collect (sound : Sound g) {id : NodeId} (garbage : g.isGarbage id = true) (j : NodeId) :
    (g.collect id).node? j = if j = id then none else (g.node? j).map (Node.without [id]) := by
  obtain ⟨n, live, -, alone⟩ := sound.isGarbage_iff.mp garbage
  have sound' := sound.sound_collect live alone
  -- No entry of the collected node is left, since it links to nothing any more.
  have left : ((g.collect id).node? j).map (Node.without [id]) = (g.collect id).node? j := by
    cases found : (g.collect id).node? j with
    | none => rfl
    | some m =>
      have counts := sound'.counted j m found
      rw [Option.map_some, counts.without_self (by simp [outgoing_collect live])]
  have remaining : Counted (g.remove id n) fun p c => (g.outgoing p).count c := by
    intro c m found
    rw [node?_remove live] at found
    split at found
    · cases found
    · exact sound.counted c m found
  rw [← left, collect_eq live, remaining.without_unlinks, node?_remove live]
  split <;> rfl

/-- A run of a sweep that takes the orphans in any order: one that is no garbage is passed over, and one that is garbage
is collected, which may queue others. The collected nodes are logged. -/
inductive Drains : Graph → List NodeId → Graph → Prop where
  | done {g : Graph} (empty : g.orphans = []) : Drains g [] g
  | pass {g g' : Graph} {gone before later : List NodeId} {id : NodeId} (queue : g.orphans = before ++ id :: later)
      (kept : g.isGarbage id = false) (rest : Drains { g with orphans := before ++ later } gone g') : Drains g gone g'
  | take {g g' : Graph} {gone before later : List NodeId} {id : NodeId} (queue : g.orphans = before ++ id :: later)
      (garbage : g.isGarbage id = true) (rest : Drains (collect { g with orphans := before ++ later } id) gone g') :
      Drains g (id :: gone) g'

namespace Drains

variable {g' : Graph} {gone : List NodeId} {before later : List NodeId}

/-- A node that is no garbage may leave the queue, and nothing is doomed or saved by that. -/
theorem doomed_pass {id : NodeId} (sound : Sound g)
    (queue : g.orphans = before ++ id :: later) (kept : g.isGarbage id = false) (j : NodeId) :
    g.Doomed j ↔ ({ g with orphans := before ++ later } : Graph).Doomed j := by
  constructor
  · intro doomed
    induction doomed with
    | @intro j n live unheld met _ ih =>
      refine .intro (n := n) live unheld ?_ fun p other link => ih p other link
      by_cases parent : ∃ p, p ≠ j ∧ j ∈ g.outgoing p
      · exact Or.inr parent
      · -- Without a link from elsewhere it is garbage, and still in the queue.
        have orphan := met.resolve_right parent
        have garbage := sound.isGarbage_iff.mpr
          ⟨n, live, unheld, fun p other link => parent ⟨p, other, link⟩⟩
        have other : j ≠ id := by
          rintro rfl
          rw [kept] at garbage
          cases garbage
        rw [queue] at orphan
        left
        simpa [other] using orphan
  · intro doomed
    induction doomed with
    | @intro j n live unheld met _ ih =>
      refine .intro (n := n) live unheld ?_ fun p other link => ih p other link
      refine met.imp (fun orphan => ?_) fun parent => parent
      rw [queue]
      rcases mem_append.mp orphan with first | last
      · exact mem_append_left _ first
      · exact mem_append_right _ (.tail _ last)

/-- Collecting any garbage of the queue leaves the other doomed nodes. -/
theorem doomed_take {id : NodeId} (sound : Sound g)
    (queue : g.orphans = before ++ id :: later) (garbage : g.isGarbage id = true) (j : NodeId) :
    g.Doomed j ↔ j = id ∨ (collect { g with orphans := before ++ later } id).Doomed j := by
  have queued : Sound { g with orphans := before ++ later } := sound.quiet (.pending g _ _ _)
  have collected : Collected { g with orphans := before ++ later } id _ := queued.collect garbage
  refine collected.doomed_iff sound garbage (by simp [queue]) (fun j member => ?_) (fun j member other dropped => ?_) j
  · rw [queue]
    rcases mem_append.mp member with first | last
    · exact mem_append_left _ first
    · exact mem_append_right _ (.tail _ last)
  · rw [queue] at member
    exact absurd (by simpa [other] using member) dropped

/-- In whatever order the orphans are taken, exactly the doomed nodes are collected. -/
theorem mem_iff (drains : Drains g gone g') (sound : Sound g) (j : NodeId) : j ∈ gone ↔ g.Doomed j := by
  induction drains with
  | @done g empty =>
    refine iff_of_false (not_mem_nil) (not_doomed sound (fun id orphan => ?_) j)
    rw [empty] at orphan
    cases orphan
  | @pass g g' gone before later id queue kept rest ih =>
    rw [doomed_pass sound queue kept]
    exact ih (sound.quiet (.pending g _ _ _))
  | @take g g' gone before later id queue garbage rest ih =>
    have queued : Sound { g with orphans := before ++ later } := sound.quiet (.pending g _ _ _)
    rw [doomed_take sound queue garbage, mem_cons, ih (queued.collect garbage).sound]

/-- What is left of the nodes then: the others, without the links from those that are gone. -/
theorem node?_eq (drains : Drains g gone g') (sound : Sound g) (j : NodeId) :
    g'.node? j = if j ∈ gone then none else (g.node? j).map (Node.without gone) := by
  induction drains with
  | @done g empty => cases g.node? j <;> simp
  | @pass g g' gone before later id queue kept rest ih => exact ih (sound.quiet (.pending g _ _ _))
  | @take g g' gone before later id queue garbage rest ih =>
    have queued : Sound { g with orphans := before ++ later } := sound.quiet (.pending g _ _ _)
    rw [ih (queued.collect garbage).sound, queued.node?_collect garbage]
    by_cases here : j = id
    · simp [here]
    · -- Its table loses the entries of the first node and those of the later ones.
      have nodes : ({ g with orphans := before ++ later } : Graph).node? j = g.node? j := rfl
      simp only [here, if_false, nodes, Option.map_map, mem_cons, false_or]
      congr 2
      funext n
      exact Node.without_without [id] gone n

end Drains

/-- Passing over orphans that are no garbage. -/
theorem Drains.passes {g' : Graph} {gone passed rest : List NodeId} (queue : g.orphans = passed ++ rest)
    (clean : ∀ j ∈ passed, g.isGarbage j = false) (drains : Drains { g with orphans := rest } gone g') :
    Drains g gone g' := by
  induction passed generalizing g with
  | nil =>
    rw [nil_append] at queue
    rwa [← queue] at drains
  | cons id passed ih =>
    have first : g.orphans = [] ++ id :: (passed ++ rest) := queue
    refine .pass first (clean id mem_cons_self) ?_
    exact ih rfl (fun j later => clean j (.tail _ later)) drains

/-- The sweep is such a run: it takes the orphans from the front. -/
theorem Sound.drains_sweep (sound : Sound g) : Drains g g.swept g.sweep := by
  have general : ∀ (fuel : Nat) (g : Graph), Sound g → g.liveCount ≤ fuel →
      Drains g (sweptUpTo fuel g) (Graph.sweepUpTo fuel g) := by
    intro fuel
    induction fuel with
    | zero =>
      intro g sound enough
      -- Without a node nothing in the queue is garbage.
      refine .passes (append_nil g.orphans).symm (fun j _ => ?_) (.done rfl)
      simp [isGarbage, node?_eq_none_of_liveCount (Nat.le_zero.mp enough)]
    | succ fuel ih =>
      intro g sound enough
      unfold sweptUpTo Graph.sweepUpTo
      cases first : g.orphans.dropWhile fun id => !g.isGarbage id with
      | nil =>
        refine .passes (append_nil g.orphans).symm (fun j member => ?_) (.done rfl)
        simpa using dropWhile_eq_nil_iff.mp first j member
      | cons id rest =>
        obtain ⟨garbage, passed, queue, clean⟩ := orphans_split first
        have queued : Sound { g with orphans := rest } := sound.quiet (.pending g _ _ _)
        have collected : Collected { g with orphans := rest } id _ := queued.collect garbage
        have fewer : (Graph.collect { g with orphans := rest } id).liveCount + 1 = g.liveCount := collected.liveCount
        have front : ({ g with orphans := id :: rest } : Graph).orphans = [] ++ id :: rest := rfl
        refine .passes queue clean (.take front garbage (ih _ collected.sound ?_))
        exact Nat.le_of_succ_le_succ (fewer.trans_le enough)
  exact general g.liveCount g sound (Nat.le_refl _)

/-- Nothing is queued to be removed. -/
def Clear (g : Graph) : Prop :=
  g.orphans = []

/-- Settling succeeds where it is asked for. -/
def Operation.Settles (F : Formulas) (g : Graph) : Operation → Prop
  | .settle contextual => ((Graph.settle (F.withContextual contextual)).run' g).isSome = true
  | _ => True

namespace Clear

variable {F : Formulas}

theorem round (sound : Sound g) : Ends (Graph.round F) g (fun _ g' => Sound g' ∧ Clear g') fun _ _ => True := by
  obtain ⟨_, g₁, -, sound₁, ends⟩ := sound.round_parts F
  refine ends.mono ?_ fun _ _ _ => trivial
  rintro _ g' ⟨-, merged, performs, rfl⟩
  have swept := (performs.sound sound₁).1.sweep
  exact ⟨swept.sound, swept.orphans⟩

/-- Operations leave nothing queued, unless it is a settling that fails. -/
theorem apply (clear : Clear g) (sound : Sound g) {op : Operation} (settles : op.Settles F g) :
    Clear (op.apply F g) := by
  have kept : ∀ {g' : Graph}, g'.orphans = g.orphans → Clear g' := fun same => same.trans clear
  cases op with
  | absorb r parentRoot =>
    exact Operation.apply_absorb sound fun _ _ _ _ performs =>
      ((performs.sound sound).1.quiet (.pending _ _ _ _)).sweep.orphans
  | retain id => exact Operation.apply_retain clear fun _ => kept (update_orphans g id _)
  | release id =>
    exact Operation.apply_release clear fun _ => ((sound.holds id (· - 1)).quiet (.pending _ _ _ _)).sweep.orphans
  | build id =>
    refine Operation.apply_build sound clear fun r g' built => ?_
    rw [built.twins.rest]
    exact clear
  | invalidate id => exact Operation.apply_invalidate clear fun _ => kept (touch_pending g id).1
  | takePrevious id => exact kept (update_orphans g id _)
  | settle contextual =>
    obtain ⟨diff, done⟩ := Option.isSome_iff_exists.mp settles
    have ends := @settle_runs (F.withContextual contextual) g (fun _ h => Sound h ∧ Clear h) ⟨sound, clear⟩
      fun h _ _ held => round held.1
    rw [Ends, eq_ok_of_run' done] at ends
    exact ends.1.2

end Clear

/-- In a run in which no settling failed, nothing is left in the queue of orphans. -/
theorem ReachableBy.clear {F : Formulas} {s : Schema} {allowed : Graph → Operation → Prop}
    (reached : ReachableBy F s allowed g) (settles : ∀ g op, allowed g op → op.Settles F g) : Sound g ∧ Clear g := by
  induction reached with
  | empty maxRounds => exact ⟨.empty s maxRounds, rfl⟩
  | apply _ op ok ih => exact ⟨ih.1.apply F op, ih.2.apply ih.1 (settles _ op ok)⟩

/-- A set of nodes is closed under what goes when a node loses a hold: the node itself, if it has no hold left and no
other node links to it, and a node that one of the set links to, if it has no hold and all others that link to it are in
the set. -/
structure TakesAlong (g : Graph) (id : NodeId) (R : Set NodeId) : Prop where
  itself : ∀ n, g.node? id = some n → n.holds - 1 = 0 → (∀ p, p ≠ id → id ∉ g.outgoing p) → id ∈ R
  next : ∀ p ∈ R, ∀ c n, c ∈ g.outgoing p → g.node? c = some n → n.holds = 0 →
    (∀ q, q ≠ c → c ∈ g.outgoing q → q ∈ R) → c ∈ R

/-- The graph where a node has lost a hold and is alone in the queue. -/
def lettingGo (g : Graph) (id : NodeId) : Graph :=
  { g.update id fun n => { n with holds := n.holds - 1 } with orphans := [id] }

section lettingGo

variable {id : NodeId}

theorem node?_lettingGo (j : NodeId) : (g.lettingGo id).node? j =
    (g.node? j).map fun n => { n with holds := if j = id then n.holds - 1 else n.holds } := by
  have read : (g.lettingGo id).node? j = (g.update id fun n => { n with holds := n.holds - 1 }).node? j := rfl
  rw [read, node?_update]
  split
  · rename_i same
    subst same
    rfl
  · cases g.node? j <;> rfl

theorem outgoing_lettingGo (p : NodeId) : (g.lettingGo id).outgoing p = g.outgoing p := by
  rw [outgoing, node?_lettingGo, Option.map_map]
  rfl

/-- If anything is doomed, no other node links to the one that is let go. -/
theorem Doomed.unlinked {j : NodeId} (doomed : (g.lettingGo id).Doomed j) : ∀ p, p ≠ id → id ∉ g.outgoing p := by
  induction doomed with
  | intro _ _ met _ ih =>
    rcases met with orphan | ⟨p, other, link⟩
    · -- A node that links to it would be doomed before it, and that rests on its being unlinked.
      cases mem_singleton.mp orphan
      exact fun p other link => ih p other (by rwa [outgoing_lettingGo]) p other link
    · exact ih p other link

/-- What is doomed is the least set that is closed under what goes. -/
theorem isLeast_doomed : IsLeast {R : Set NodeId | g.TakesAlong id R} {j | (g.lettingGo id).Doomed j} := by
  constructor
  · refine ⟨fun n found unheld alone => ?_, fun p doomed c n link found unheld parents => ?_⟩
    · refine .intro (by rw [node?_lettingGo, found]; rfl) ?_ (Or.inl mem_cons_self) fun p other link => ?_
      · simpa using unheld
      · rw [outgoing_lettingGo] at link
        exact absurd link (alone p other)
    · -- A node that links to itself is in the set already.
      by_cases own : p = c
      · exact own ▸ doomed
      refine .intro (by rw [node?_lettingGo, found]; rfl) ?_ (Or.inr ⟨p, own, ?_⟩) fun q other link => ?_
      · simp [unheld]
      · rwa [outgoing_lettingGo]
      · rw [outgoing_lettingGo] at link
        exact parents q other link
  · intro R closed j doomed
    have alone := doomed.unlinked
    induction doomed with
    | @intro j n found unheld met _ ih =>
      rw [node?_lettingGo] at found
      obtain ⟨m, there, rfl⟩ := Option.map_eq_some_iff.mp found
      by_cases same : j = id
      · subst same
        exact closed.itself m there (by simpa using unheld) alone
      · -- Any other node is there because of one that links to it.
        obtain ⟨p, other, link⟩ := met.resolve_left fun orphan => same (mem_singleton.mp orphan)
        have members : ∀ q, q ≠ j → j ∈ g.outgoing q → q ∈ R := fun q apart link =>
          ih q apart (by rwa [outgoing_lettingGo])
        rw [outgoing_lettingGo] at link
        exact closed.next p (members p other link) j m link there (by simpa [same] using unheld) members

end lettingGo

/-- Letting a node go is exact. In a run in which no settling failed, it removes the least set of nodes that is closed
under what goes. All others keep what they have, but for the hold that is let go and the links from removed nodes.
Taking the orphans in any other order comes to the same. -/
theorem ReachableBy.release_collects {F : Formulas} {s : Schema} {g : Graph}
    (reached : ReachableBy F s (fun g op => op.Settles F g) g) {id : NodeId}
    (live : g.contains id = true) :
    ∃ (g' : Graph) (gone : List NodeId), g.release id = .ok g' ∧
      IsLeast {R : Set NodeId | g.TakesAlong id R} {j | j ∈ gone} ∧
      (∀ j ∈ gone, g.contains j = true) ∧
      (∀ j, g'.node? j = if j ∈ gone then none else (g.node? j).map fun n =>
        { n with
          holds := if j = id then n.holds - 1 else n.holds
          parents := n.parents.filter fun e => e.1 ∉ gone }) ∧
      ∀ gone' h, Drains (g.lettingGo id) gone' h → (∀ j, j ∈ gone' ↔ j ∈ gone) ∧ ∀ j, h.node? j = g'.node? j := by
  obtain ⟨sound, clear⟩ := reached.clear fun _ _ settles => settles
  obtain ⟨n, found⟩ := contains_iff.mp live
  have sound' : Sound (g.lettingGo id) := (sound.holds id (· - 1)).quiet (.pending _ _ _ _)
  -- Nothing was waiting, so the node is the only orphan that the sweep starts with.
  have released : g.release id = .ok (g.lettingGo id).sweep := by
    have known : g.node id = .ok n := by rw [node, found]
    rw [release, known]
    change Except.ok (sweep { g.update id _ with orphans := id :: (g.update id _).orphans }) = _
    rw [update_orphans, show g.orphans = [] from clear]
    rfl
  have swept := sound'.drains_sweep
  have doomed := swept.mem_iff sound'
  refine ⟨_, (g.lettingGo id).swept, released, ?_, fun j member => ?_, fun j => ?_, fun gone' h drains => ?_⟩
  · have same : {j | j ∈ (g.lettingGo id).swept} = {j | (g.lettingGo id).Doomed j} := Set.ext doomed
    rw [same]
    exact isLeast_doomed
  · -- What is doomed is live.
    cases (doomed j).mp member with
    | intro there =>
      rw [node?_lettingGo] at there
      obtain ⟨m, there, -⟩ := Option.map_eq_some_iff.mp there
      exact contains_iff.mpr ⟨m, there⟩
  · rw [swept.node?_eq sound', node?_lettingGo, Option.map_map]
    rfl
  · -- In any order exactly the doomed nodes go.
    have members : ∀ j, j ∈ gone' ↔ j ∈ (g.lettingGo id).swept := fun j =>
      (drains.mem_iff sound' j).trans (doomed j).symm
    refine ⟨members, fun j => ?_⟩
    have same : Node.without gone' = Node.without (g.lettingGo id).swept := by
      funext n
      simp only [Node.without, members]
    rw [drains.node?_eq sound', swept.node?_eq sound', same]
    simp only [members]

/-- An item that links to itself, twice to a second item and once to a third one. -/
def sharingItem : Record :=
  chainItem "a" (.value (chainEnd "a"))
    (.value (.list [some (chainEnd "b"), none, some (chainEnd "b"), some (chainEnd "c")]))

/-- The graph where that item is held, and a fourth one links to the third one as well. -/
def sharedGraph : Graph :=
  Operation.apply noFormulas (Operation.apply noFormulas (Operation.apply noFormulas
    (Graph.empty chainSchema defaultRounds) (.absorb sharingItem none))
    (.absorb (chainItem "d" (.value (chainEnd "c")) .absent) none)) (.retain ⟨0, 0⟩)

/-- The second item goes with the first one, and the third one stays. -/
theorem release_collects_shared : ∃ (g' : Graph) (gone : List NodeId), sharedGraph.release ⟨0, 0⟩ = .ok g' ∧
    IsLeast {R : Set NodeId | sharedGraph.TakesAlong ⟨0, 0⟩ R} {j | j ∈ gone} ∧
    ⟨0, 0⟩ ∈ gone ∧ ⟨1, 0⟩ ∈ gone ∧ ⟨2, 0⟩ ∉ gone := by
  have reached : ReachableBy noFormulas chainSchema (fun g op => op.Settles noFormulas g) sharedGraph :=
    (((ReachableBy.empty defaultRounds).apply (.absorb _ none) trivial).apply (.absorb _ none) trivial).apply
      (.retain ⟨0, 0⟩) trivial
  have live : sharedGraph.contains ⟨0, 0⟩ = true := by decide +kernel
  obtain ⟨g', gone, released, least, -, nodes, -⟩ := ReachableBy.release_collects reached live
  have before : [(⟨0, 0⟩ : NodeId), ⟨1, 0⟩, ⟨2, 0⟩].map sharedGraph.contains = [true, true, true] := by decide +kernel
  have after : (sharedGraph.release ⟨0, 0⟩).toOption.map
      (fun h => [(⟨0, 0⟩ : NodeId), ⟨1, 0⟩, ⟨2, 0⟩].map h.contains) = some [false, false, true] := by decide +kernel
  rw [released] at after
  simp only [map_cons, map_nil, List.cons.injEq, and_true, Except.toOption, Option.map_some,
    Option.some.injEq, contains, nodes] at before after
  refine ⟨g', gone, released, least, ?_, ?_, ?_⟩
  · by_contra kept
    simp [kept, before.1] at after
  · by_contra kept
    simp [kept, before.2.1] at after
  · intro member
    simp [member] at after

end Graph

end EntityGraph
