import EntityGraph.Proofs.Graph.Reachable

/-! Building in two graphs of which one has more snapshots: where the additional ones are of nodes without cycles, both
build the same records, and end up with the same snapshots. -/

namespace EntityGraph.Graph

open List

open Relation Step

variable {g : Graph} {id : NodeId} {F : Formulas} {r : Record} {ids : List NodeId} {x : NodeId}

namespace Twins

variable {h : Graph}

theorem content (twins : Twins g h) (j : NodeId) : (h.node? j).map Node.content = (g.node? j).map Node.content :=
  twins.map_node? Node.content (fun _ _ _ => rfl) j

theorem sameBelow (twins : Twins g h) (id : NodeId) : SameBelow g h id :=
  fun c _ => twins.content c

theorem leads (twins : Twins g h) : h.Leads = g.Leads := by
  funext p c
  rw [Leads, SameBelow.outgoing_eq (twins.content p), Leads]

end Twins

/-- The node has no snapshot. -/
def isUnbuilt (g : Graph) (id : NodeId) : Bool :=
  (g.cached? id).isNone

theorem isUnbuilt_iff : g.isUnbuilt id = true ↔ g.cached? id = none :=
  Option.isNone_iff_eq_none

theorem isUnbuilt_eq_false_iff : g.isUnbuilt id = false ↔ (g.cached? id).isSome = true := by
  cases found : g.cached? id <;> simp [isUnbuilt, found]

/-- The second search is the first one without the nodes that fail a test. -/
structure Pruned (test : NodeId → Bool) (s t : Search) : Prop where
  found : t.found = s.found.filter test
  seen : ∀ j, test j = true → (j ∈ t.seen ↔ j ∈ s.seen)

/-- The second graph has all snapshots of the first one. What it has beyond them is of nodes without cycles, and
right. -/
structure Trailing (F : Formulas) (g h : Graph) : Prop where
  twins : Twins g h
  cached : ∀ j r, g.cached? j = some r → h.cached? j = some r
  straight : ∀ j, (h.cached? j).isSome = true → g.cached? j = none → g.NoCycle j
  sound : Sound g
  sound' : Sound h
  leafy : Leafy g
  coherent : Coherent F g
  coherent' : Coherent F h

namespace Trailing

variable {h : Graph}

variable (trailing : Trailing F g h)
include trailing

theorem closed (closed' : SnapshotsClosed h) (p c : NodeId)
    (built : (h.cached? p).isSome = true) (link : g.Leads p c) : (h.cached? c).isSome = true := by
  rw [← trailing.twins.leads] at link
  exact closed' p c built link

theorem lacks {j : NodeId} (lacks : h.cached? j = none) : g.cached? j = none := by
  cases found : g.cached? j with
  | none => rfl
  | some r =>
    rw [trailing.cached j r found] at lacks
    cases lacks

/-- Below a node with a snapshot in the second graph only the first search goes on, and finds nothing that counts. -/
theorem search_built (closed' : SnapshotsClosed h) (fuel : Nat) (live : g.contains id = true) {s t : Search}
    (pruned : Pruned h.isUnbuilt s t) (test : h.isUnbuilt id = false) :
    ∃ s' t', g.search (fuel + 1) s id = .ok s' ∧ h.search (fuel + 1) t id = .ok t' ∧ Pruned h.isUnbuilt s' t' := by
  obtain ⟨n, here⟩ := contains_iff.mp live
  obtain ⟨m, there, -⟩ := trailing.twins.of_live here
  -- All that the first search adds below the node has a snapshot in the second graph.
  have built := isUnbuilt_eq_false_iff.mp test
  obtain ⟨seen, found, searched, seen_, found_⟩ :=
    trailing.sound.search_inside (trailing.closed closed') (fuel + 1) built live s
  have none : found.filter h.isUnbuilt = [] :=
    filter_eq_nil_iff.mpr fun j member => by simp [isUnbuilt_eq_false_iff.mpr (found_ j member)]
  have passed : ∀ t' : Search, t'.found = t.found → (∀ j, h.isUnbuilt j = true → (j ∈ t'.seen ↔ j ∈ t.seen)) →
      Pruned h.isUnbuilt ⟨seen ++ s.seen, found ++ s.found⟩ t' := by
    intro t' same same'
    refine ⟨by rw [same, pruned.found, filter_append, none, nil_append], fun j test => ?_⟩
    rw [same' j test, pruned.seen j test, mem_append]
    refine ⟨Or.inr, fun member => member.resolve_left fun added => ?_⟩
    rw [isUnbuilt_eq_false_iff.mpr (seen_ j added)] at test
    cases test
  refine ⟨_, if id ∈ t.seen then t else ⟨id :: t.seen, t.found⟩, searched, ?_, ?_⟩
  · rw [cached?_of_live there] at built
    unfold Graph.search
    split
    · rfl
    · simp only [node, there, bind, Except.bind, built, if_true]
      rfl
  · split
    · exact passed t rfl fun _ _ => Iff.rfl
    · refine passed _ rfl fun j test' => ?_
      have other : j ≠ id := by
        rintro rfl
        rw [test] at test'
        cases test'
      simp [other]

/-- The search in the second graph passes over what has a snapshot there, and finds the others in the same order. -/
theorem search (closed' : SnapshotsClosed h) (fuel : Nat) (live : g.contains id = true) {s t : Search}
    (pruned : Pruned h.isUnbuilt s t) :
    ∃ s' t', g.search fuel s id = .ok s' ∧ h.search fuel t id = .ok t' ∧ Pruned h.isUnbuilt s' t' := by
  induction fuel generalizing id s t with
  | zero => exact ⟨s, t, rfl, rfl, pruned⟩
  | succ fuel ih =>
    obtain ⟨n, here⟩ := contains_iff.mp live
    obtain ⟨m, there, twin⟩ := trailing.twins.of_live here
    have links : m.links = n.links := by
      rw [twin]
      rfl
    cases test : h.isUnbuilt id with
    | false => exact trailing.search_built closed' fuel live pruned test
    | true =>
      have none' : m.cached = none := by rw [← cached?_of_live there]; exact isUnbuilt_iff.mp test
      have none : n.cached = none := by rw [← cached?_of_live here]; exact trailing.lacks (isUnbuilt_iff.mp test)
      by_cases seen : id ∈ s.seen
      · refine ⟨s, t, ?_, ?_, pruned⟩
        · rw [Graph.search, if_pos seen]
        · rw [Graph.search, if_pos ((pruned.seen id test).mpr seen)]
      · -- Neither graph has a snapshot, and both searches follow the same links.
        have each : ∀ (cs : List NodeId) (s t : Search), (∀ c ∈ cs, g.Leads id c) → Pruned h.isUnbuilt s t →
            ∃ s' t', cs.foldlM (g.search fuel) s = .ok s' ∧ cs.foldlM (h.search fuel) t = .ok t' ∧
              Pruned h.isUnbuilt s' t' := by
          intro cs
          induction cs with
          | nil => exact fun s t _ pruned => ⟨s, t, rfl, rfl, pruned⟩
          | cons c rest step =>
            intro s t edges pruned
            obtain ⟨s₁, t₁, first, first', pruned₁⟩ :=
              ih (trailing.sound.closed id c (edges c mem_cons_self)) pruned
            obtain ⟨s₂, t₂, later, later', pruned₂⟩ := step s₁ t₁
              (fun d member => edges d (.tail _ member)) pruned₁
            refine ⟨s₂, t₂, ?_, ?_, pruned₂⟩
            · rw [foldlM_cons, first]
              exact later
            · rw [foldlM_cons, first']
              exact later'
        have entered : Pruned h.isUnbuilt ⟨id :: s.seen, s.found⟩ ⟨id :: t.seen, t.found⟩ :=
          ⟨pruned.found, fun j test => by rw [mem_cons, mem_cons, pruned.seen j test]⟩
        obtain ⟨s', t', searched, searched', pruned'⟩ := each n.links.reverse _ _ (fun c member => by
          rw [Leads, outgoing_of_live here]
          simpa using member) entered
        refine ⟨⟨s'.seen, id :: s'.found⟩, ⟨t'.seen, id :: t'.found⟩, ?_, ?_, ?_, pruned'.seen⟩
        · rw [Graph.search, if_neg seen]
          simp only [node, here, bind, Except.bind, none, Option.isSome_none, Bool.false_eq_true, if_false, searched]
          rfl
        · rw [Graph.search, if_neg (mt (pruned.seen id test).mp seen)]
          simp only [node, there, bind, Except.bind, none', Option.isSome_none, Bool.false_eq_true, if_false, links,
            searched']
          rfl
        · simp only [filter_cons, test, if_true, pruned'.found]

/-- The nodes to build in the second graph are those of the first one that have no snapshot there. -/
theorem unbuilt (closed' : SnapshotsClosed h) (lacks : h.cached? id = none) (listed : g.unbuilt id = .ok ids) :
    h.unbuilt id = .ok (ids.filter h.isUnbuilt) := by
  cases here : g.node? id with
  | none => simp [Graph.unbuilt, node, here, bind, Except.bind] at listed
  | some n =>
    obtain ⟨m, there, twin⟩ := trailing.twins.of_live here
    have layout : m.layout = n.layout := by rw [twin]
    simp only [Graph.unbuilt, node, here, there, layout, bind, Except.bind] at listed ⊢
    split at listed
    · rename_i holds
      obtain ⟨s, t, searched, searched', pruned⟩ := trailing.search closed' (g.slots.length + 1)
        (contains_iff.mpr ⟨n, here⟩) (⟨rfl, fun _ _ => Iff.rfl⟩ : Pruned h.isUnbuilt ⟨[], []⟩ ⟨[], []⟩)
      rw [searched] at listed
      cases listed
      rw [if_pos holds, trailing.twins.length, searched', filter_reverse]
      change Except.ok t.found.reverse = _
      rw [pruned.found]
    · rename_i leaf
      cases listed
      rw [if_neg leaf, filter_cons_of_pos (isUnbuilt_iff.mpr lacks)]
      rfl

/-- A link of a node whose links were built before it has the same target in both graphs. -/
theorem target {c : NodeId} (link : g.Leads x c) (ready : (g.cached? c).isSome = true ∨ ReflTransGen g.Leads c x) :
    Graph.target F h c = Graph.target F g c := by
  obtain ⟨n, here⟩ := contains_iff.mp (trailing.sound.closed x c link)
  obtain ⟨m, there, twin⟩ := trailing.twins.of_live here
  have same : m.cached = n.cached := by
    cases found : g.cached? c with
    | some r => rw [← cached?_of_live here, ← cached?_of_live there, found, trailing.cached c r found]
    | none =>
      -- A link back closes a cycle, so the second graph has no snapshot of the target either.
      rw [found] at ready
      have back := ready.resolve_left (by simp)
      rw [← cached?_of_live here, ← cached?_of_live there, found]
      by_contra extra
      exact trailing.straight c (Option.isSome_iff_ne_none.mpr extra) found c .refl (.tail' back link)
  have standIn : standIn F m = standIn F n := by
    rw [twin]
    rfl
  simp only [Graph.target, node, here, there, bind, Except.bind, same, standIn]

/-- The record of such a node is the same in both graphs. -/
theorem recordOf {n : Node} (here : g.node? x = some n)
    (ready : ∀ c, g.Leads x c → (g.cached? c).isSome = true ∨ ReflTransGen g.Leads c x) :
    h.recordOf F x = g.recordOf F x := by
  obtain ⟨m, there, twin⟩ := trailing.twins.of_live here
  have content : m.content = n.content := by
    rw [twin]
    rfl
  have leads : ∀ c ∈ n.links, g.Leads x c := fun c link => by rwa [Leads, outgoing_of_live here]
  have known : ∀ c ∈ n.links,
      Graph.target F g c = .ok ((Graph.target F g c).toOption.getD ⟨n.layout, []⟩) := fun c link => by
    obtain ⟨k, live⟩ := contains_iff.mp (trailing.sound.closed x c (leads c link))
    simp [Graph.target, node, live, Except.toOption]
  rw [recordOf_eq_expand F here known, recordOf_eq_expand F there fun c link => ?_, content]
  have link' : c ∈ n.links := by rwa [show m.links = n.links by rw [twin]; rfl] at link
  exact (trailing.target (leads c link') (ready c (leads c link'))).trans (known c link')

/-- The first graph takes a snapshot that the second one has. -/
theorem catchUp (live : g.contains x = true) (lacks : g.cached? x = none) (made : g.recordOf F x = .ok r)
    (ready : ∀ c, g.Leads x c → (g.cached? c).isSome = true ∨ ReflTransGen g.Leads c x)
    (built : (h.cached? x).isSome = true) : Trailing F (g.update x fun n => { n with cached := some r }) h := by
  have fills := Fills.keep live lacks r
  have coherent := trailing.coherent.keep trailing.sound live made ready
  have cached := cached?_keep live r
  refine ⟨fills.twins.symm.trans trailing.twins, fun j s found => ?_, fun j extra none => ?_,
    trailing.sound.quiet fills.toQuiet, trailing.sound', trailing.leafy.quiet fills.toQuiet, coherent,
    trailing.coherent'⟩
  · rw [cached] at found
    split at found
    · -- Both snapshots are what the node unfolds to.
      rename_i here
      subst here
      cases found
      obtain ⟨s, there⟩ := Option.isSome_iff_exists.mp built
      have straight := trailing.straight j built lacks
      have right := coherent j r (by rw [cached, if_pos rfl]) ((fills.twins.sameBelow j).noCycle straight)
      have right' := trailing.coherent' j s there ((trailing.twins.sameBelow j).noCycle straight)
      rw [there, ((fills.twins.sameBelow j).symm.unfolds right).unique
        ((trailing.twins.sameBelow j).symm.unfolds right')]
    · exact trailing.cached j s found
  · rw [cached] at none
    split at none
    · cases none
    · exact (fills.twins.sameBelow j).noCycle (trailing.straight j extra none)

/-- Both graphs take the same snapshot. -/
theorem keep (live : g.contains x = true) (lacks : h.cached? x = none) (made : g.recordOf F x = .ok r)
    (ready : ∀ c, g.Leads x c → (g.cached? c).isSome = true ∨ ReflTransGen g.Leads c x) :
    Trailing F (g.update x fun n => { n with cached := some r }) (h.update x fun n => { n with cached := some r }) := by
  have live' : h.contains x = true := by rw [trailing.twins.contains]; exact live
  have fills := Fills.keep live (trailing.lacks lacks) r
  have fills' := Fills.keep live' lacks r
  have cached := cached?_keep live r
  have cached' := cached?_keep live' r
  obtain ⟨n, here⟩ := contains_iff.mp live
  have made' : h.recordOf F x = .ok r := by rw [trailing.recordOf here ready, made]
  refine ⟨(fills.twins.symm.trans trailing.twins).trans fills'.twins, fun j s found => ?_, fun j extra none => ?_,
    trailing.sound.quiet fills.toQuiet, trailing.sound'.quiet fills'.toQuiet, trailing.leafy.quiet fills.toQuiet,
    trailing.coherent.keep trailing.sound live made ready,
    trailing.coherent'.keep trailing.sound' live' made' fun c link => ?_⟩
  · rw [cached] at found
    rw [cached']
    split at found
    · rename_i same
      rw [if_pos same]
      exact found
    · rename_i other
      rw [if_neg other]
      exact trailing.cached j s found
  · rw [cached] at none
    rw [cached'] at extra
    split at none
    · cases none
    · rename_i other
      rw [if_neg other] at extra
      exact (fills.twins.sameBelow j).noCycle (trailing.straight j extra none)
  · rw [trailing.twins.leads] at link ⊢
    refine (ready c link).imp_left fun built => ?_
    obtain ⟨s, found⟩ := Option.isSome_iff_exists.mp built
    rw [trailing.cached c s found]
    rfl

end Trailing

theorem takeSnapshots_cons (rest : List NodeId) (made : g.recordOf F x = .ok r) :
    takeSnapshots F (x :: rest) g = takeSnapshots F rest (g.update x fun n => { n with cached := some r }) := by
  simp only [takeSnapshots, Bind.bind, EStateM.bind, Step.ask, made]
  rfl

/-- The snapshots of the first graph are taken in both, as far as the second one lacks them. -/
theorem Trailing.takeSnapshots {h : Graph} (trailing : Trailing F g h) {test : NodeId → Bool} (once : ids.Nodup)
    (live : AllLive g ids) (lacks : ∀ id ∈ ids, g.cached? id = none) (order : PostOrdered g ids.reverse)
    (agrees : ∀ id ∈ ids, test id = h.isUnbuilt id) :
    ∃ g' h', Graph.takeSnapshots F ids g = .ok () g' ∧
      Graph.takeSnapshots F (ids.filter test) h = .ok () h' ∧ Trailing F g' h' := by
  induction ids generalizing g h with
  | nil => exact ⟨g, h, rfl, rfl, trailing⟩
  | cons x rest ih =>
    have here := live x mem_cons_self
    have none := lacks x mem_cons_self
    rw [nodup_cons] at once
    rw [reverse_cons] at order
    obtain ⟨r, made⟩ := trailing.sound.recordOf_ok F here
    rw [takeSnapshots_cons rest made]
    have fills := Fills.keep here none r
    have built₁ : ((g.update x fun n => { n with cached := some r }).cached? x).isSome = true := by
      rw [cached?_keep here, if_pos rfl]
      rfl
    have live₁ : AllLive _ rest := AllLive.quiet (fun j member => live j (.tail _ member)) fills.toQuiet
    have others : ∀ j ∈ rest, j ≠ x := fun j member same => once.1 (same ▸ member)
    have lacks₁ : ∀ j ∈ rest, (g.update x fun n => { n with cached := some r }).cached? j = Option.none :=
      fun j member => by rw [cached?_keep here, if_neg (others j member), lacks j (.tail _ member)]
    cases tested : test x with
    | false =>
      -- The second graph has the snapshot already, and the first one catches up.
      have extra : (h.cached? x).isSome = true := by
        rw [← isUnbuilt_eq_false_iff, ← agrees x mem_cons_self, tested]
      rw [filter_cons_of_neg (by simp [tested])]
      exact ih (trailing.catchUp here none made order.ready extra) once.2 live₁ lacks₁ (order.next fills built₁)
        fun j member => agrees j (.tail _ member)
    | true =>
      -- Neither has it, and both make the same record of their snapshots.
      have none' : h.cached? x = Option.none := by
        rw [← isUnbuilt_iff, ← agrees x mem_cons_self, tested]
      have there : h.contains x = true := by rw [trailing.twins.contains]; exact here
      obtain ⟨n, found⟩ := contains_iff.mp here
      have made' : h.recordOf F x = .ok r := by rw [trailing.recordOf found order.ready, made]
      rw [filter_cons_of_pos tested, takeSnapshots_cons _ made']
      refine ih (trailing.keep here none' made order.ready) once.2 live₁ lacks₁ (order.next fills built₁)
        fun j member => ?_
      rw [agrees j (.tail _ member), isUnbuilt, isUnbuilt, cached?_keep there, if_neg (others j member)]

/-- What has a snapshot is not built. -/
theorem build_of_cached (cached : g.cached? id = some r) : build F id g = .ok r g := by
  obtain ⟨n, live, there⟩ := Option.bind_eq_some_iff.mp cached
  simp only [build, Bind.bind, EStateM.bind, Step.ask, node, live, there]
  rfl

/-- What has none is built with all that it needs. -/
theorem build_of_unbuilt {g' : Graph} (live : g.contains id = true) (lacks : g.cached? id = none)
    (listed : g.unbuilt id = .ok ids) (taken : takeSnapshots F ids g = .ok () g')
    (cached : g'.cached? id = some r) : build F id g = .ok r g' := by
  obtain ⟨n, here⟩ := contains_iff.mp live
  rw [cached?_of_live here] at lacks
  obtain ⟨n', there, kept⟩ := Option.bind_eq_some_iff.mp cached
  simp only [build, Bind.bind, EStateM.bind, Step.ask, node, here, lacks, listed, taken, there, kept]
  rfl

theorem rebuild_cons_of_dead (dead : g.contains id = false) (rest : List NodeId) :
    rebuild F (id :: rest) g = rebuild F rest g := by
  rw [rebuild]
  change (if g.contains id then _ else rebuild F rest : Step (List Changed)) g = _
  rw [dead]
  rfl

theorem rebuild_cons {g₁ g₂ : Graph} {rest : List NodeId} {is : Record} {others : List Changed}
    (live : g.contains id = true) (built : build F id (g.takePrevious id).2 = .ok is g₁)
    (later : rebuild F rest g₁ = .ok others g₂) :
    rebuild F (id :: rest) g = .ok ((changeOf? id (g.previous? id) is).toList ++ others) g₂ := by
  rw [rebuild]
  change (if g.contains id then _ else rebuild F rest : Step (List Changed)) g = _
  rw [if_pos live]
  change ((do
    let is ← build F id
    let others ← rebuild F rest
    if (g.previous? id).any fun w => w.equals .state is then return others
    else return ⟨id, ⟨g.previous? id, is⟩⟩ :: others) : Step (List Changed)) (g.takePrevious id).2 = _
  simp only [Bind.bind, EStateM.bind, built, later, changeOf?]
  split <;> rfl

namespace Trailing

variable {h : Graph}

variable (trailing : Trailing F g h)
include trailing

theorem leafy' : Leafy h := by
  intro id m there leaf
  obtain ⟨n, here, twin⟩ := trailing.twins.of_live' there
  rw [twin] at leaf ⊢
  exact trailing.leafy id n here leaf

/-- A node builds to the same record in both graphs. -/
theorem build (closed' : SnapshotsClosed h) (live : g.contains id = true) :
    ∃ r g' h', Graph.build F id g = .ok r g' ∧ Graph.build F id h = .ok r h' ∧ Trailing F g' h' ∧
      SnapshotsClosed h' := by
  cases cached : g.cached? id with
  | some r =>
    exact ⟨r, g, h, build_of_cached cached, build_of_cached (trailing.cached id r cached), trailing, closed'⟩
  | none =>
    obtain ⟨ids, listed, once, among, each, below, ordered⟩ := trailing.sound.unbuilt_order live cached
    have alive : AllLive g ids := fun j member => (each j member).1
    obtain ⟨g', h', taken, taken', trailing'⟩ := trailing.takeSnapshots once alive
      (fun j member => (each j member).2) (ordered trailing.leafy).1 fun _ _ => rfl
    have ends := trailing.sound.takeSnapshots_fills F once alive fun j member => (each j member).2
    rw [Ends, taken] at ends
    obtain ⟨r, here⟩ := Option.isSome_iff_exists.mp (ends.2.1 id among)
    have built := build_of_unbuilt live cached listed taken here
    cases cached' : h.cached? id with
    | some r' =>
      -- Everything below the node has its snapshot in the second graph, so that nothing is taken there.
      have along : ∀ j, ReflTransGen g.Leads id j → (h.cached? j).isSome = true := by
        intro j leads
        induction leads with
        | refl => rw [cached']; rfl
        | tail _ link before => exact trailing.closed closed' _ _ before link
      rw [filter_eq_nil_iff.mpr fun j member => by
        simp [isUnbuilt_eq_false_iff.mpr (along j (below j member))]] at taken'
      cases taken'
      exact ⟨r, g', h, built, build_of_cached (trailing'.cached id r here), trailing', closed'⟩
    | none =>
      have live' : h.contains id = true := by rw [trailing.twins.contains]; exact live
      have built' := build_of_unbuilt live' cached' (trailing.unbuilt closed' cached' listed) taken'
        (trailing'.cached id r here)
      have ends' := trailing.sound'.built F live'
      rw [Ends, built'] at ends'
      exact ⟨r, g', h', built, built', trailing', ends'.closed trailing.leafy' closed'⟩

/-- Giving out evicted snapshots keeps the second graph trailing. -/
theorem takePrevious (id : NodeId) : Trailing F (g.takePrevious id).2 (h.takePrevious id).2 := by
  have quiet := Quiet.takePrevious g id
  have quiet' := Quiet.takePrevious h id
  have twin : Twins g (g.takePrevious id).2 := .update g id fun _ => rfl
  have twin' : Twins h (h.takePrevious id).2 := .update h id fun _ => rfl
  refine ⟨(twin.symm.trans trailing.twins).trans twin', fun j r found => ?_, fun j extra none => ?_,
    trailing.sound.quiet quiet, trailing.sound'.quiet quiet', trailing.leafy.quiet quiet,
    trailing.coherent.congr quiet.content (cached?_takePrevious g id),
    trailing.coherent'.congr quiet'.content (cached?_takePrevious h id)⟩
  · rw [cached?_takePrevious] at found ⊢
    exact trailing.cached j r found
  · rw [cached?_takePrevious] at extra none
    exact (twin.sameBelow j).noCycle (trailing.straight j extra none)

/-- Building nodes again lists the same changes, if the evicted snapshots are the same. -/
theorem rebuild (closed' : SnapshotsClosed h) (previous : ∀ j, h.previous? j = g.previous? j) (ids : List NodeId) :
    ∃ changed g' h', Graph.rebuild F ids g = .ok changed g' ∧ Graph.rebuild F ids h = .ok changed h' ∧
      Trailing F g' h' ∧ ∀ j, h'.previous? j = g'.previous? j := by
  induction ids generalizing g h with
  | nil => exact ⟨[], g, h, rfl, rfl, trailing, previous⟩
  | cons id rest ih =>
    cases live : g.contains id with
    | false =>
      have live' : h.contains id = false := by rw [trailing.twins.contains]; exact live
      rw [rebuild_cons_of_dead live, rebuild_cons_of_dead live']
      exact ih trailing closed' previous
    | true =>
      have live' : h.contains id = true := by rw [trailing.twins.contains]; exact live
      have taken := trailing.takePrevious id
      have closed₁ : SnapshotsClosed (h.takePrevious id).2 :=
        closed'.congr (Quiet.takePrevious h id).content (cached?_takePrevious h id)
      have live₁ : (g.takePrevious id).2.contains id = true := by
        rw [(Quiet.takePrevious g id).cores.contains]
        exact live
      obtain ⟨is, g₁, h₁, built, built', trailing₁, closed₂⟩ := taken.build closed₁ live₁
      -- Building leaves evicted snapshots alone.
      have same : ∀ j, h₁.previous? j = g₁.previous? j := by
        have ends := taken.sound.built F live₁
        have ends' := taken.sound'.built F (by rw [taken.twins.contains]; exact live₁)
        rw [Ends, built] at ends
        rw [Ends, built'] at ends'
        intro j
        rw [ends.previous, ends'.previous, previous?_takePrevious, previous?_takePrevious, previous]
      obtain ⟨others, g₂, h₂, later, later', trailing₂, same₂⟩ := ih trailing₁ closed₂ same
      refine ⟨_, g₂, h₂, rebuild_cons live built later, ?_, trailing₂, same₂⟩
      rw [rebuild_cons live' built' later', previous]

/-- Where everything that lacks a snapshot is built again, the graphs are the same afterwards. -/
theorem rebuild_eq (closed' : SnapshotsClosed h) (previous : ∀ j, h.previous? j = g.previous? j)
    (pending : Pending g ids) : Graph.rebuild F ids h = Graph.rebuild F ids g := by
  obtain ⟨changed, g', h', rebuilt, rebuilt', trailing', same⟩ := trailing.rebuild closed' previous ids
  have ends := trailing.sound.rebuilt F ids
  rw [Ends, rebuilt] at ends
  have everywhere : ∀ j, g'.contains j = true → (g'.cached? j).isSome = true := by
    intro j live
    rw [ends.cores.contains] at live
    cases before : g.cached? j with
    | some r =>
      rw [ends.kept j r before]
      rfl
    | none => exact ends.built j (pending j live before) live
  rw [rebuilt, rebuilt', trailing'.twins.eq_of_same fun id n m here there => ?_]
  obtain ⟨r, cached⟩ := Option.isSome_iff_exists.mp (everywhere id (contains_iff.mpr ⟨n, here⟩))
  constructor
  · rw [← cached?_of_live here, ← cached?_of_live there, cached, trailing'.cached id r cached]
  · simpa [previous?, here, there] using same id

end Trailing

end EntityGraph.Graph
