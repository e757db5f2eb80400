import EntityGraph.Proofs.Graph.Lasting
import EntityGraph.Proofs.Graph.Twins

/-! Taking snapshots in order: each node is built after the nodes that it links to, as far as links have no cycle, so
that every snapshot is what its node unfolds to. -/

namespace EntityGraph.Graph

open List

open Relation Step

variable {g g' : Graph} {id : NodeId} {F : Formulas} {r : Record} {later : List NodeId}

/-- Every node in the list, the latest first, links to nodes that have a snapshot, come earlier, or lead back to it. -/
def PostOrdered (g : Graph) : List NodeId → Prop
  | [] => True
  | x :: earlier =>
    (∀ c, g.Leads x c → (g.cached? c).isSome = true ∨ c ∈ earlier ∨ ReflTransGen g.Leads c x) ∧ PostOrdered g earlier

/-- The state of a search below the nodes of a path. -/
structure Searching (g : Graph) (path : List NodeId) (s : Search) : Prop where
  /-- What was seen has a snapshot, was found, or is still being visited. -/
  seen : ∀ x ∈ s.seen, (g.cached? x).isSome = true ∨ x ∈ s.found ∨ x ∈ path
  order : PostOrdered g s.found
  unbuilt : ∀ x ∈ s.found, g.contains x = true ∧ g.cached? x = none
  /-- All links of what was found have been followed. -/
  followed : ∀ x ∈ s.found, ∀ c, g.Leads x c → c ∈ s.seen
  once : s.found.Nodup
  met : ∀ x ∈ s.found, x ∈ s.seen
  /-- What is still being visited was not found yet. -/
  visiting : ∀ p ∈ path, p ∉ s.found

theorem cached?_of_live {n : Node} (live : g.node? id = some n) : g.cached? id = n.cached := by
  simp [cached?, live]

namespace Searching

variable {path : List NodeId} {s : Search}

/-- A node with a snapshot leads no further. -/
theorem pass (state : Searching g path s) (built : (g.cached? id).isSome = true) :
    Searching g path ⟨id :: s.seen, s.found⟩ := by
  refine ⟨fun x member => ?_, state.order, state.unbuilt,
    fun x member c link => .tail _ (state.followed x member c link), state.once,
    fun x member => .tail _ (state.met x member), state.visiting⟩
  rcases mem_cons.mp member with rfl | earlier
  · exact Or.inl built
  · exact state.seen x earlier

/-- A node that is entered is being visited. -/
theorem enter (state : Searching g path s) (fresh : id ∉ s.seen) :
    Searching g (id :: path) ⟨id :: s.seen, s.found⟩ := by
  refine ⟨fun x member => ?_, state.order, state.unbuilt,
    fun x member c link => .tail _ (state.followed x member c link), state.once,
    fun x member => .tail _ (state.met x member), fun p member found => ?_⟩
  · rcases mem_cons.mp member with rfl | earlier
    · exact Or.inr (Or.inr mem_cons_self)
    · rcases state.seen x earlier with built | found | visiting
      · exact Or.inl built
      · exact Or.inr (Or.inl found)
      · exact Or.inr (Or.inr (.tail _ visiting))
  · rcases mem_cons.mp member with rfl | earlier
    · exact fresh (state.met p found)
    · exact state.visiting p earlier found

/-- A node is found as soon as all of its links have been followed. -/
theorem leave (state : Searching g (id :: path) s) (fresh : id ∉ path)
    (unbuilt : g.contains id = true ∧ g.cached? id = none) (here : id ∈ s.seen)
    (followed : ∀ c, g.Leads id c → c ∈ s.seen) (above : ∀ p ∈ path, ReflTransGen g.Leads p id) :
    Searching g path ⟨s.seen, id :: s.found⟩ where
  seen x member := by
    -- The node itself is found now, and no longer being visited.
    rcases state.seen x member with built | found | visiting
    · exact Or.inl built
    · exact Or.inr (Or.inl (.tail _ found))
    · rcases mem_cons.mp visiting with rfl | earlier
      · exact Or.inr (Or.inl mem_cons_self)
      · exact Or.inr (Or.inr earlier)
  order := by
    refine ⟨fun c link => ?_, state.order⟩
    -- A link to a node that is still being visited closes a cycle.
    rcases state.seen c (followed c link) with built | found | visiting
    · exact Or.inl built
    · exact Or.inr (Or.inl found)
    · rcases mem_cons.mp visiting with rfl | earlier
      · exact Or.inr (Or.inr .refl)
      · exact Or.inr (Or.inr (above c earlier))
  unbuilt x member := by
    rcases mem_cons.mp member with rfl | earlier
    · exact unbuilt
    · exact state.unbuilt x earlier
  followed x member c link := by
    rcases mem_cons.mp member with rfl | earlier
    · exact followed c link
    · exact state.followed x earlier c link
  once := nodup_cons.mpr ⟨state.visiting id mem_cons_self, state.once⟩
  met x member := by
    rcases mem_cons.mp member with rfl | earlier
    · exact here
    · exact state.met x earlier
  visiting p member found := by
    rcases mem_cons.mp found with rfl | earlier
    · exact fresh member
    · exact state.visiting p (.tail _ member) earlier

/-- Nodes are searched one after the other, if each one can be. -/
theorem foldlM {search : Search → NodeId → Except GraphError Search} {ids : List NodeId}
    (each : ∀ c ∈ ids, ∀ s, Searching g path s → (∀ p ∈ path, p ∈ s.seen) → ∃ s', search s c = .ok s' ∧
      Searching g path s' ∧ (∀ x ∈ s.seen, x ∈ s'.seen) ∧ c ∈ s'.seen)
    (state : Searching g path s) (known : ∀ p ∈ path, p ∈ s.seen) :
    ∃ s', ids.foldlM search s = .ok s' ∧ Searching g path s' ∧ (∀ x ∈ s.seen, x ∈ s'.seen) ∧
      ∀ c ∈ ids, c ∈ s'.seen := by
  induction ids generalizing s with
  | nil => exact ⟨s, rfl, state, fun _ member => member, by simp⟩
  | cons c rest ih =>
    obtain ⟨s₁, searched, state₁, kept₁, there⟩ := each c mem_cons_self s state known
    obtain ⟨s₂, others, state₂, kept₂, all⟩ := ih (fun d member => each d (.tail _ member)) state₁ fun p member =>
      kept₁ p (known p member)
    refine ⟨s₂, by rw [foldlM_cons, searched]; exact others, state₂, fun x member => kept₂ x (kept₁ x member), ?_⟩
    intro d member
    rcases mem_cons.mp member with rfl | later
    · exact kept₂ d there
    · exact all d later

end Searching

/-- A search below a path, with fuel for every path without repetitions, finds nodes in order and all that lack a
snapshot. -/
theorem Sound.searching (sound : Sound g) (fuel : Nat) {path : List NodeId} {s : Search} (live : g.contains id = true)
    (state : Searching g path s) (distinct : path.Nodup)
    (above : ∀ p ∈ path, g.contains p = true ∧ p ∈ s.seen ∧ ReflTransGen g.Leads p id)
    (enough : g.slots.length < fuel + path.length) :
    ∃ s', g.search fuel s id = .ok s' ∧ Searching g path s' ∧ (∀ x ∈ s.seen, x ∈ s'.seen) ∧ id ∈ s'.seen := by
  induction fuel generalizing path s id with
  | zero =>
    -- The path alone would have more nodes than there are slots.
    have short := length_le_slots distinct fun p member => (above p member).1
    omega
  | succ fuel ih =>
    obtain ⟨n, here⟩ := contains_iff.mp live
    unfold Graph.search
    split
    · rename_i before
      exact ⟨s, rfl, state, fun _ member => member, before⟩
    · rename_i fresh
      simp only [node, here, bind, Except.bind]
      split
      · rename_i built
        refine ⟨_, rfl, state.pass ?_, fun x member => .tail _ member, mem_cons_self⟩
        rwa [cached?_of_live here]
      · rename_i unbuilt
        have lacks : g.cached? id = none := by rw [cached?_of_live here]; simpa using unbuilt
        have links : ∀ {c}, g.Leads id c ↔ c ∈ n.links := by simp [Leads, outgoing_of_live here]
        have apart : id ∉ path := fun member => fresh (above id member).2.1
        -- Below the node the path is longer by the node.
        have each : ∀ c ∈ n.links.reverse, ∀ s, Searching g (id :: path) s → (∀ p ∈ id :: path, p ∈ s.seen) →
            ∃ s', g.search fuel s c = .ok s' ∧ Searching g (id :: path) s' ∧ (∀ x ∈ s.seen, x ∈ s'.seen) ∧
              c ∈ s'.seen := by
          intro c member s state known
          have edge : g.Leads id c := links.mpr (by simpa using member)
          refine ih (sound.closed id c edge) state (nodup_cons.mpr ⟨apart, distinct⟩) (fun p member => ?_) ?_
          · rcases mem_cons.mp member with rfl | earlier
            · exact ⟨live, known p member, .single edge⟩
            · exact ⟨(above p earlier).1, known p member, (above p earlier).2.2.tail edge⟩
          · rw [length_cons]
            omega
        have known : ∀ p ∈ id :: path, p ∈ id :: s.seen := by
          intro p member
          rcases mem_cons.mp member with rfl | earlier
          · exact mem_cons_self
          · exact .tail _ (above p earlier).2.1
        obtain ⟨s', searched, state', kept, all⟩ := (state.enter fresh).foldlM each known
        have followed : ∀ c, g.Leads id c → c ∈ s'.seen := fun c link => all c (by simpa using links.mp link)
        have seen : id ∈ s'.seen := kept id mem_cons_self
        refine ⟨⟨s'.seen, id :: s'.found⟩, by rw [searched]; rfl, ?_, fun x member => kept x (.tail _ member), seen⟩
        exact state'.leave apart ⟨live, lacks⟩ seen followed fun p member => (above p member).2.2

/-- The oldest snapshot that a change of a node evicted and nobody asked for yet. -/
def previous? (g : Graph) (id : NodeId) : Option Record :=
  (g.node? id).bind Node.previous

/-- Nodes whose types hold no identifiable records have no links. -/
def Leafy (g : Graph) : Prop :=
  ∀ id n, g.node? id = some n → n.layout.containsIdentifiable = false → n.links = []

/-- What a node with a snapshot links to has a snapshot. -/
def SnapshotsClosed (g : Graph) : Prop :=
  ∀ p c, (g.cached? p).isSome = true → g.Leads p c → (g.cached? c).isSome = true

/-- Snapshots are added, and nothing else changes. -/
structure Fills (g g' : Graph) : Prop extends Quiet g g' where
  twins : Twins g g'
  previous : ∀ j, g'.previous? j = g.previous? j
  kept : ∀ j r, g.cached? j = some r → g'.cached? j = some r

namespace Fills

theorem refl (g : Graph) : Fills g g :=
  ⟨.refl g, .refl g, fun _ => rfl, fun _ _ found => found⟩

theorem trans {g₁ g₂ g₃ : Graph} (first : Fills g₁ g₂) (second : Fills g₂ g₃) : Fills g₁ g₃ where
  toQuiet := first.toQuiet.trans second.toQuiet
  twins := first.twins.trans second.twins
  previous j := (second.previous j).trans (first.previous j)
  kept j r found := second.kept j r (first.kept j r found)

theorem rest (fills : Fills g g') : g' = { g with slots := g'.slots } :=
  fills.twins.rest

theorem leads (fills : Fills g g') : g'.Leads = g.Leads := by
  funext p c
  rw [Leads, fills.cores.outgoing, Leads]

theorem isSome (fills : Fills g g') {j : NodeId} (built : (g.cached? j).isSome = true) :
    (g'.cached? j).isSome = true := by
  obtain ⟨r, found⟩ := Option.isSome_iff_exists.mp built
  rw [fills.kept j r found]
  rfl

end Fills

theorem cached?_keep (live : g.contains id = true) (r : Record) (j : NodeId) :
    (g.update id fun n => { n with cached := some r }).cached? j = if j = id then some r else g.cached? j := by
  obtain ⟨n, found⟩ := contains_iff.mp live
  simp only [cached?, node?_update]
  split
  · simp [found]
  · rfl

/-- Keeping the first snapshot of a node adds it. -/
theorem Fills.keep (live : g.contains id = true) (lacks : g.cached? id = none) (r : Record) :
    Fills g (g.update id fun n => { n with cached := some r }) where
  toQuiet := .keep g id r
  twins := .update g id fun _ => rfl
  previous j := bind_node?_update g id (fun n => { n with cached := some r }) Node.previous (fun _ => rfl) j
  kept j s found := by
    rw [cached?_keep live, if_neg, found]
    rintro rfl
    rw [lacks] at found
    cases found

/-- What is cached for a node is right for it. -/
def Snapshots (right : Graph → NodeId → Record → Prop) (g : Graph) : Prop :=
  ∀ id r, g.cached? id = some r → right g id r

/-- What is right for a node depends on the fields and keys below it, and a record that is made from right snapshots is
right. Some nodes that it is made from may lack a snapshot, as far as they lead back. -/
structure Transmits (F : Formulas) (right : Graph → NodeId → Record → Prop) : Prop where
  below : ∀ {g g' : Graph} {id : NodeId} {r : Record}, SameBelow g g' id →
    (∀ c, ReflTransGen g.Leads id c → g'.keyOf c = g.keyOf c) → right g id r → right g' id r
  made : ∀ {g : Graph} {id : NodeId} {r : Record}, Sound g → g.contains id = true → g.recordOf F id = .ok r →
    (∀ c, g.Leads id c → (g.cached? c).isSome = true ∨ ReflTransGen g.Leads c id) →
    (∀ c s, g.Leads id c → g.cached? c = some s → right g c s) → right g id r

/-- A snapshot that is made from snapshots keeps all of them right. -/
theorem Transmits.keep {right : Graph → NodeId → Record → Prop} (transmits : Transmits F right)
    (snapshots : Snapshots right g) (sound : Sound g) (live : g.contains id = true) (made : g.recordOf F id = .ok r)
    (ready : ∀ c, g.Leads id c → (g.cached? c).isSome = true ∨ ReflTransGen g.Leads c id) :
    Snapshots right (g.update id fun n => { n with cached := some r }) := by
  have same := (Quiet.keep g id r).cores
  intro j s found
  refine transmits.below (same.sameBelow j) (fun c _ => same.keyOf c) ?_
  rw [cached?_keep live] at found
  split at found
  · rename_i here
    subst here
    cases found
    exact transmits.made sound live made ready fun c s _ cached => snapshots c s cached
  · exact snapshots j s found

/-- What nodes unfold to is right for them. -/
theorem Transmits.unfolds (F : Formulas) :
    Transmits F fun g id r => g.NoCycle id → Unfolds F g id r where
  below same _ right straight := same.unfolds (right (same.symm.noCycle straight))
  made := by
    intro g id r _ live made ready right straight
    -- No link leads back, so every target has its snapshot, which is what the target unfolds to.
    obtain ⟨n, present⟩ := contains_iff.mp live
    have leads : ∀ c ∈ n.links, g.Leads id c := fun c link => by rwa [Leads, outgoing_of_live present]
    have built : ∀ c ∈ n.links, ∃ s, g.cached? c = some s := by
      intro c link
      rcases ready c (leads c link) with built | back
      · exact Option.isSome_iff_exists.mp built
      · exact absurd (.head' (leads c link) back) (straight id .refl)
    have known : ∀ c ∈ n.links, target F g c = .ok ((g.cached? c).getD r) := by
      intro c link
      obtain ⟨s, cached⟩ := built c link
      obtain ⟨m, there, snapshot⟩ := Option.bind_eq_some_iff.mp cached
      simp [target, node, there, snapshot, cached]
    rw [recordOf_eq_expand F present known, Except.ok.injEq] at made
    rw [← made]
    refine .intro _ present fun c link => ?_
    obtain ⟨s, cached⟩ := built c link
    rw [cached]
    exact right c s (leads c link) cached fun d further => straight d (.head (leads c link) further)

theorem Coherent.keep (coherent : Coherent F g) (sound : Sound g) (live : g.contains id = true)
    (made : g.recordOf F id = .ok r)
    (ready : ∀ c, g.Leads id c → (g.cached? c).isSome = true ∨ ReflTransGen g.Leads c id) :
    Coherent F (g.update id fun n => { n with cached := some r }) :=
  (Transmits.unfolds F).keep coherent sound live made ready

theorem PostOrdered.ready (order : PostOrdered g (later ++ [id])) :
    ∀ c, g.Leads id c → (g.cached? c).isSome = true ∨ ReflTransGen g.Leads c id := by
  induction later with
  | nil => exact fun c link => (order.1 c link).imp_right fun other => other.resolve_left (by simp)
  | cons x rest ih => exact ih order.2

/-- The others of a list are in order once the first one is built. -/
theorem PostOrdered.next (order : PostOrdered g (later ++ [id])) (fills : Fills g g')
    (built : (g'.cached? id).isSome = true) : PostOrdered g' later := by
  induction later with
  | nil => trivial
  | cons x rest ih =>
    refine ⟨fun c link => ?_, ih order.2⟩
    rw [fills.leads] at link ⊢
    rcases order.1 c link with cached | earlier | back
    · exact Or.inl (fills.isSome cached)
    · rcases mem_append.mp earlier with before | first
      · exact Or.inr (Or.inl before)
      · rw [mem_singleton.mp first]
        exact Or.inl built
    · exact Or.inr (Or.inr back)

/-- Snapshots taken in order add to the cache, and keep it right. -/
theorem Sound.takeSnapshots_fills (sound : Sound g) (F : Formulas) {ids : List NodeId} (once : ids.Nodup)
    (live : AllLive g ids) (lacks : ∀ id ∈ ids, g.cached? id = none) :
    Ends (Graph.takeSnapshots F ids) g
      (fun _ g' => Fills g g' ∧ (∀ id ∈ ids, (g'.cached? id).isSome = true) ∧
        (∀ j, j ∉ ids → g'.cached? j = g.cached? j) ∧
        (PostOrdered g ids.reverse → ∀ right, Transmits F right → Snapshots right g → Snapshots right g') ∧
        ∀ holds, Lasting F holds → Nodes holds g → Nodes holds g')
      fun _ _ => False := by
  induction ids generalizing g with
  | nil => exact ⟨.refl g, by simp, fun _ _ => rfl, fun _ _ _ snapshots => snapshots, fun _ _ nodes => nodes⟩
  | cons id rest ih =>
    rw [Graph.takeSnapshots]
    have here := live id mem_cons_self
    obtain ⟨r, made⟩ := sound.recordOf_ok F here
    refine Ends.bind (Ends.ask made ?_)
    rw [nodup_cons] at once
    -- The first snapshot is added to the cache, and the others find it there.
    have fills := Fills.keep here (lacks id mem_cons_self) r
    have cached := cached?_keep here r
    have later : AllLive _ rest := AllLive.quiet (fun j member => live j (.tail _ member)) fills.toQuiet
    refine (ih (sound.quiet fills.toQuiet) once.2 later fun j member => ?_).mono ?_ fun _ _ => False.elim
    · rw [cached, if_neg]
      · exact lacks j (.tail _ member)
      · rintro rfl
        exact once.1 member
    · rintro _ g' ⟨fills', built, others, snapshots', lasting'⟩
      have built₁ : ((g.update id fun n => { n with cached := some r }).cached? id).isSome = true := by
        rw [cached, if_pos rfl]
        rfl
      refine ⟨fills.trans fills', fun j member => ?_, fun j member => ?_, fun order right transmits snapshots => ?_,
        fun holds lasting nodes => lasting' holds lasting (nodes.keep lasting sound made)⟩
      · rcases mem_cons.mp member with rfl | after
        · exact fills'.isSome built₁
        · exact built j after
      · rw [mem_cons, not_or] at member
        rw [others j member.2, cached, if_neg member.1]
      · rw [reverse_cons] at order
        exact snapshots' (order.next fills built₁) right transmits
          (transmits.keep snapshots sound here made order.ready)

/-- What a built node leaves: its snapshot is cached, and so are those that it is made from. -/
structure Built (F : Formulas) (g : Graph) (id : NodeId) (r : Record) (g' : Graph) : Prop extends
    Fills g g' where
  here : g'.cached? id = some r
  below : ∀ j, g'.cached? j = g.cached? j ∨ ReflTransGen g.Leads id j
  snapshots : Leafy g → ∀ right, Transmits F right → Snapshots right g → Snapshots right g'
  closed : Leafy g → SnapshotsClosed g → SnapshotsClosed g'
  lasting : ∀ holds, Lasting F holds → Nodes holds g → Nodes holds g'

/-- The nodes to build for a node without a snapshot: itself and what it leads to without a snapshot, in order. -/
theorem Sound.unbuilt_order (sound : Sound g) (live : g.contains id = true) (lacks : g.cached? id = none) :
    ∃ ids, g.unbuilt id = .ok ids ∧ ids.Nodup ∧ id ∈ ids ∧ (∀ j ∈ ids, g.contains j = true ∧ g.cached? j = none) ∧
      (∀ j ∈ ids, ReflTransGen g.Leads id j) ∧ (Leafy g → PostOrdered g ids.reverse ∧
        ∀ j ∈ ids, ∀ c, g.Leads j c → (g.cached? c).isSome = true ∨ c ∈ ids) := by
  obtain ⟨n, here⟩ := contains_iff.mp live
  simp only [unbuilt, node, here, bind, Except.bind]
  split
  · -- The search starts with nothing seen and nothing above it.
    have start : Searching g [] ⟨[], []⟩ := ⟨by simp, trivial, by simp, by simp, by simp, by simp, by simp⟩
    obtain ⟨s, searched, state, -, met⟩ := sound.searching (g.slots.length + 1) live start (by simp) (by simp) (by simp)
    have below : ∀ j ∈ s.found, ReflTransGen g.Leads id j := by
      obtain ⟨seen, found, same, -, inside⟩ := sound.search_inside
        (fun p c (leads : ReflTransGen g.Leads id p) link => leads.tail link) (g.slots.length + 1) .refl live ⟨[], []⟩
      cases searched.symm.trans same
      simpa using inside
    refine ⟨s.found.reverse, by rw [searched]; rfl, nodup_reverse.mpr state.once, ?_,
      fun j member => state.unbuilt j (by simpa using member),
      fun j member => below j (by simpa using member), fun _ =>
      ⟨by simpa using state.order, fun j member c link => ?_⟩⟩
    · have found := state.seen id met
      rw [lacks] at found
      simpa using found
    · have found := state.seen c (state.followed j (by simpa using member) c link)
      simpa using found
  · -- A node that cannot hold others has no links.
    rename_i leaf
    refine ⟨[id], rfl, by simp, by simp, by simpa using ⟨live, lacks⟩, by simpa using .refl, fun leafy => ?_⟩
    have none : ∀ c, ¬ g.Leads id c := by
      intro c link
      rw [Leads, outgoing_of_live here, leafy id n here (by simpa using leaf)] at link
      cases link
    exact ⟨⟨fun c link => absurd link (none c), trivial⟩, by
      simp only [mem_singleton, forall_eq]
      exact fun c link => absurd link (none c)⟩

/-- Building a live node gives its snapshot, which is cached from then on. -/
theorem Sound.built (sound : Sound g) (F : Formulas) (live : g.contains id = true) :
    Ends (Graph.build F id) g (fun r g' => Built F g id r g') fun _ _ => False := by
  obtain ⟨n, here⟩ := contains_iff.mp live
  have asked : g.node id = .ok n := by simp [node, here]
  unfold Graph.build
  refine Ends.bind (Ends.ask asked ?_)
  cases cached : n.cached with
  | some r =>
    -- A snapshot that is there is given out.
    exact ⟨.refl g, by rw [cached?_of_live here, cached], fun _ => Or.inl rfl, fun _ _ _ snapshots => snapshots,
      fun _ closed => closed, fun _ _ nodes => nodes⟩
  | none =>
    have lacks : g.cached? id = none := by rw [cached?_of_live here, cached]
    obtain ⟨ids, listed, once, among, each, below, ordered⟩ := sound.unbuilt_order live lacks
    refine Ends.bind (Ends.ask listed ?_)
    refine Ends.bind ((sound.takeSnapshots_fills F once (fun j member => (each j member).1)
      fun j member => (each j member).2).mono ?_ fun _ _ => False.elim)
    rintro _ g' ⟨fills, built, others, snapshots, lasting⟩
    -- The node is one of those that were built.
    obtain ⟨r, snapshot⟩ := Option.isSome_iff_exists.mp (built id among)
    obtain ⟨n', there, kept⟩ := Option.bind_eq_some_iff.mp snapshot
    have asked' : g'.node id = .ok n' := by simp [node, there]
    refine Ends.bind (Ends.ask asked' ?_)
    rw [kept]
    refine ⟨fills, snapshot, fun j => ?_, fun leafy => snapshots (ordered leafy).1,
      fun leafy closed p c built₁ link => ?_, lasting⟩
    · by_cases member : j ∈ ids
      · exact Or.inr (below j member)
      · exact Or.inl (others j member)
    · rw [fills.leads] at link
      by_cases member : p ∈ ids
      · rcases (ordered leafy).2 p member c link with before | also
        · exact fills.isSome before
        · exact built c also
      · rw [others p member] at built₁
        exact fills.isSome (closed p c built₁ link)

/-- Building a live node never fails, and changes nothing but snapshots. -/
theorem Sound.build (sound : Sound g) (F : Formulas) (live : g.contains id = true) :
    Ends (Graph.build F id) g (fun _ g' => Quiet g g') fun _ _ => False :=
  (sound.built F live).mono (fun _ _ built => built.toQuiet) fun _ _ => False.elim

theorem Built.coherent (built : Built F g id r g') (leafy : Leafy g) (coherent : Coherent F g) : Coherent F g' :=
  built.snapshots leafy _ (.unfolds F) coherent

theorem Built.unfolds (built : Built F g id r g') (leafy : Leafy g) (coherent : Coherent F g)
    (straight : g.NoCycle id) : Unfolds F g id r := by
  have same := built.cores.sameBelow id
  exact same.symm.unfolds (built.coherent leafy coherent id r built.here (same.noCycle straight))

end EntityGraph.Graph
