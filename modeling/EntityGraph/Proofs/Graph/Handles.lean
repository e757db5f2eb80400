import EntityGraph.Proofs.Graph.Reachable

/-! Handles over whole runs: every operation is a row of changes to slots and tables, in which the handles that lose
their nodes are logged. The generation of a slot counts its entries in the log, so that a handle of the log stays dead
until the count comes round. -/

namespace EntityGraph

open List

/-- How often the slot was emptied when the given handles lost their nodes. -/
def timesFreed (past : List NodeId) (i : Nat) : Nat :=
  (past.map NodeId.index).count i

namespace Graph

open Step

variable {g : Graph} {id : NodeId} {n : Node} {α : Type} {most : Nat} {ids : List NodeId}

/-- The generation of a slot. -/
def age? (g : Graph) (i : Nat) : Option UInt32 :=
  g.slots[i]?.map Slot.generation

theorem age?_of_live (live : g.node? id = some n) : g.age? id.index = some id.generation := by
  rw [age?, node?_eq_some_iff.mp live]
  rfl

theorem age?_update (g : Graph) (id : NodeId) (f : Node → Node) (i : Nat) : (g.update id f).age? i = g.age? i := by
  unfold update
  cases found : g.node? id with
  | none => rfl
  | some n =>
    -- The slot gets another node, with the generation that it has.
    have slot := node?_eq_some_iff.mp found
    have inside := (List.getElem?_eq_some_iff.mp slot).1
    by_cases here : id.index = i
    · subst here
      simp only [age?, getElem?_set_self inside, slot, Option.map_some]
    · simp [age?, here]

/-- Making a node changes no generation, and a new slot starts with zero. -/
theorem age?_create {g' : Graph} {layout : Layout} {key : Key} {parentRoot : Option NodeId} (arena : Arena g)
    (made : g.create layout key parentRoot = (id, g')) (i : Nat) :
    g'.age? i = g.age? i ∨ g.age? i = none ∧ g'.age? i = some 0 := by
  unfold create allocate at made
  cases free : g.free with
  | cons k rest =>
    rw [free] at made
    cases made
    -- The slot is one of the free list, and keeps its generation.
    obtain ⟨u, slot⟩ := (arena.free k).mp (by simp [free])
    have inside := (List.getElem?_eq_some_iff.mp slot).1
    left
    by_cases here : k = i
    · subst here
      simp [age?, inside]
    · simp [age?, here]
  | nil =>
    rw [free] at made
    cases made
    -- The slot is added behind the others.
    rcases Nat.lt_trichotomy i g.slots.length with before | rfl | behind
    · left
      simp [age?, getElem?_append_left before]
    · right
      simp [age?]
    · left
      have outside : ∀ empty full : Slot, ((g.slots ++ [empty]).set g.slots.length full).length ≤ i := by
        intro empty full
        rw [length_set, length_append, length_singleton]
        exact behind
      simp only [age?]
      rw [getElem?_eq_none (Nat.le_of_lt behind), getElem?_eq_none (outside _ _)]

theorem Twins.age? {g' : Graph} (twins : Twins g g') (i : Nat) : g'.age? i = g.age? i := by
  unfold Graph.age?
  cases slot : g.slots[i]? with
  | none => rw [twins.slot_of_none slot]
  | some s =>
    obtain ⟨t, there, same⟩ := twins.slots i s slot
    rw [there, Option.map_some, Option.map_some, same.generation]

theorem age?_remove (live : g.node? id = some n) (i : Nat) :
    (g.remove id n).age? i = if id.index = i then some (id.generation + 1) else g.age? i := by
  have inside := (List.getElem?_eq_some_iff.mp (node?_eq_some_iff.mp live)).1
  split
  · rename_i here
    subst here
    simp [age?, remove, inside]
  · rename_i other
    simp [age?, remove, other]

/-- One change of the slots and tables, with the number of holds that it takes and the handle that loses its node. -/
inductive Shift (g : Graph) : Nat → List NodeId → Graph → Prop where
  /-- A node changes, and keeps its key and its type. -/
  | update (id : NodeId) {f : Node → Node} {taken : Nat} (key : ∀ n, (f n).key = n.key)
      (name : ∀ n, (f n).layout.name = n.layout.name) (held : ∀ n, (f n).holds ≤ n.holds + taken) :
      Shift g taken [] (g.update id f)
  /-- Nothing changes, whatever could have been taken. -/
  | rest (taken : Nat) : Shift g taken [] g
  /-- Snapshots are taken. -/
  | build {g' : Graph} (twins : Twins g g') (quiet : Quiet g g') : Shift g 0 [] g'
  | queue (orphans created : List NodeId) : Shift g 0 [] { g with orphans := orphans, created := created }
  /-- A live node is marked as changed. -/
  | mark {id : NodeId} (live : g.contains id = true) :
      Shift g 0 [] { g with changed := Ordered.insert NodeId.lt id g.changed }
  /-- The nodes that changed are taken off their list. -/
  | take : Shift g 0 [] { g with changed := [] }
  | make {layout : Layout} {key : Key} {parentRoot : Option NodeId} {id : NodeId} {g' : Graph}
      (fresh : g.find? key = none) (made : g.create layout key parentRoot = (id, g')) : Shift g 0 [] g'
  | remove {id : NodeId} {n : Node} (live : g.node? id = some n) : Shift g 0 [id] (g.remove id n)

/-- Changes of the slots and tables, one after the other, with the number of holds that they take and the handles that
lose their nodes. -/
inductive Shifts : Nat → List NodeId → Graph → Graph → Prop where
  | refl (g : Graph) : Shifts 0 [] g g
  | cons {taken more : Nat} {gone later : List NodeId} {g g₁ g' : Graph} (first : Shift g taken gone g₁)
      (others : Shifts more later g₁ g') : Shifts (taken + more) (gone ++ later) g g'

namespace Shift

variable {g' : Graph} {taken : Nat} {gone : List NodeId}

theorem arena (shift : Shift g taken gone g') (arena : Arena g) : Arena g' := by
  cases shift with
  | update id key name held => exact arena.update id key name
  | build _ quiet => exact quiet.arena arena
  | rest => exact arena
  | queue | mark | take => exact arena.congr rfl rfl rfl rfl
  | make fresh made => exact arena.create fresh made
  | remove live => exact arena.remove live

/-- A handle that is live stays so, unless it is the one that loses its node. -/
theorem lost_or_live (shift : Shift g taken gone g') (arena : Arena g) (live : g.contains id = true) :
    id ∈ gone ∨ g'.contains id = true := by
  cases shift with
  | @update j f _ key name held =>
    -- A node that changes is still a node.
    right
    simp only [contains, node?_update] at live ⊢
    split
    · rename_i same
      rw [same] at live
      rw [Option.isSome_map]
      exact live
    · exact live
  | build twins => exact Or.inr ((twins.contains id).trans live)
  | rest | queue | mark | take => exact Or.inr live
  | make fresh made => exact Or.inr ((Grows.create arena made).contains live)
  | @remove j n there =>
    by_cases same : id = j
    · exact Or.inl (by simp [same])
    · right
      rw [contains, node?_remove there, if_neg same]
      exact live

/-- Holds grow by those that are taken. -/
theorem held (shift : Shift g taken gone g') (arena : Arena g) (few : ∀ id n, g.node? id = some n → n.holds ≤ most) :
    ∀ id n, g'.node? id = some n → n.holds ≤ most + taken := by
  intro id n live
  cases shift with
  | @update j f _ key name held =>
    rw [node?_update] at live
    split at live
    · obtain ⟨m, there, rfl⟩ := Option.map_eq_some_iff.mp live
      exact Nat.le_trans (held m) (Nat.add_le_add_right (few j m there) taken)
    · exact Nat.le_add_right_of_le (few id n live)
  | rest | queue | mark | take => exact Nat.le_add_right_of_le (few id n live)
  | build twins =>
    -- Snapshots are no part of what is counted.
    have same := twins.map_node? Node.holds (fun _ _ _ => rfl) id
    rw [live, Option.map_some, eq_comm, Option.map_eq_some_iff] at same
    obtain ⟨m, there, same⟩ := same
    exact same ▸ few id m there
  | make fresh made =>
    rw [(arena.node?_create made).2] at live
    split at live
    · cases live
      exact Nat.zero_le most
    · exact few id n live
  | remove there =>
    rw [node?_remove there] at live
    split at live
    · cases live
    · exact few id n live

end Shift

/-- What is known about handles when the given ones have lost their nodes. -/
structure Handles (past : List NodeId) (g : Graph) : Prop extends Arena g where
  /-- The generation of a slot counts how often it was emptied. -/
  aged : ∀ i u, g.age? i = some u → u = UInt32.ofNat (timesFreed past i)
  /-- Nothing was ever in a slot that is not there. -/
  inside : ∀ id ∈ past, (g.age? id.index).isSome = true
  /-- A handle that lost its node has a generation from before. -/
  older : ∀ id ∈ past, ∃ age < timesFreed past id.index, id.generation = UInt32.ofNat age
  queued : ∀ id ∈ g.changed, g.contains id = true
  queuedOnce : g.changed.Pairwise fun a b => NodeId.lt a b = true
  typedOnce : ∀ type, (g.live type).Pairwise fun a b => NodeId.lt a b = true

theorem pairwise_insert_lt (sorted : ids.Pairwise fun a b => NodeId.lt a b = true) (id : NodeId) :
    (Ordered.insert NodeId.lt id ids).Pairwise fun a b => NodeId.lt a b = true :=
  @Ordered.pairwise_insert _ NodeId.lt _ _ (fun _ _ _ => NodeId.lt_trans) sorted

namespace Handles

variable {past : List NodeId} {g' : Graph} {taken : Nat}

theorem empty (s : Schema) (maxRounds : Nat) : Handles [] (Graph.empty s maxRounds) where
  toArena := .empty s maxRounds
  aged := by simp [age?, Graph.empty]
  inside := by simp
  older := by simp
  queued := by simp [Graph.empty]
  queuedOnce := .nil
  typedOnce _ := .nil

/-- Where no slot gets older the handles of the past stay what they are. -/
theorem ageless (handles : Handles past g) (shift : Shift g taken [] g')
    (ages : ∀ i, g'.age? i = g.age? i ∨ g.age? i = none ∧ g'.age? i = some 0)
    (queued : ∀ id ∈ g'.changed, id ∈ g.changed ∨ g'.contains id = true)
    (queuedOnce : g'.changed.Pairwise fun a b => NodeId.lt a b = true)
    (typedOnce : ∀ type, (g'.live type).Pairwise fun a b => NodeId.lt a b = true) : Handles (past ++ []) g' := by
  rw [append_nil]
  -- The log is the same, so only new slots and new entries of the lists have to be looked at.
  refine ⟨shift.arena handles.toArena, fun i u there => ?_, fun id listed => ?_, handles.older, fun id member => ?_,
    queuedOnce, typedOnce⟩
  · rcases ages i with same | ⟨outside, new⟩
    · exact handles.aged i u (by rw [← same]; exact there)
    · -- A new slot was never emptied.
      have never : timesFreed past i = 0 := by
        refine count_eq_zero.mpr fun member => ?_
        obtain ⟨id, listed, rfl⟩ := mem_map.mp member
        have there := handles.inside id listed
        rw [outside] at there
        cases there
      rw [new, Option.some.injEq] at there
      rw [never, ← there]
      rfl
  · have there := handles.inside id listed
    rcases ages id.index with same | ⟨outside, -⟩
    · rw [same]
      exact there
    · rw [outside] at there
      cases there
  · rcases queued id member with before | live
    · exact (shift.lost_or_live handles.toArena (handles.queued id before)).resolve_left not_mem_nil
    · exact live

/-- A node is removed, and its handle joins the past: the slot is one older. -/
theorem remove (handles : Handles past g) (live : g.node? id = some n) : Handles (past ++ [id]) (g.remove id n) := by
  have freed : ∀ i, timesFreed (past ++ [id]) i = timesFreed past i + if id.index = i then 1 else 0 := fun i => by
    simp [timesFreed, count_singleton]
  have now := handles.aged _ _ (age?_of_live live)
  -- The generation and the count of the slot go up together, and those of other slots stay.
  refine ⟨handles.toArena.remove live, fun i u there => ?_, fun j listed => ?_, fun j listed => ?_,
    fun j member => ?_, handles.queuedOnce.sublist filter_sublist, fun type => ?_⟩
  · rw [age?_remove live] at there
    rw [freed]
    split at there
    · rename_i here
      subst here
      rw [← Option.some.inj there, now, if_pos rfl, UInt32.ofNat_add]
      rfl
    · rename_i other
      rw [if_neg other, Nat.add_zero]
      exact handles.aged i u there
  · rw [age?_remove live]
    split
    · rfl
    · rename_i other
      rcases mem_append.mp listed with before | new
      · exact handles.inside j before
      · rw [mem_singleton.mp new] at other
        exact absurd rfl other
  · rw [freed]
    rcases mem_append.mp listed with before | new
    · obtain ⟨age, less, same⟩ := handles.older j before
      exact ⟨age, by omega, same⟩
    · -- The removed handle has the generation that its slot had so far.
      rw [mem_singleton.mp new, if_pos rfl]
      exact ⟨_, Nat.lt_succ_self _, now⟩
  · -- The removed handle is taken off the list of changes.
    obtain ⟨listed, other⟩ := mem_filter.mp member
    refine ((Shift.remove live).lost_or_live handles.toArena (handles.queued j listed)).resolve_left ?_
    simpa using other
  · -- It is taken off the list of its type, and other lists stay.
    by_cases named : type = n.layout.name
    · subst named
      simp only [Graph.remove, Graph.live, Entries.find?_insert_self, Option.getD_some]
      exact (handles.typedOnce _).sublist filter_sublist
    · simp only [Graph.remove, Graph.live, Entries.find?_insert_of_ne named]
      exact handles.typedOnce type

/-- Every change keeps what is known about handles, and logs those that lose their nodes. -/
theorem shift (handles : Handles past g) {gone : List NodeId} (shift : Shift g taken gone g') :
    Handles (past ++ gone) g' := by
  cases shift with
  | update id key name held =>
    refine handles.ageless (.update id key name held) (fun i => Or.inl (age?_update g id _ i)) (fun j member => ?_)
      ?_ ?_
    · rw [update_changed] at member
      exact Or.inl member
    · rw [update_changed]
      exact handles.queuedOnce
    · intro type
      rw [update_live]
      exact handles.typedOnce type
  | rest => rwa [append_nil]
  | build twins quiet =>
    have changed : g'.changed = g.changed := by rw [twins.rest]
    have lists : ∀ type, g'.live type = g.live type := fun type => by rw [twins.rest, Graph.live, Graph.live]
    exact handles.ageless (.build twins quiet) (fun i => Or.inl (twins.age? i)) (fun j => Or.inl ∘ (changed ▸ ·))
      (changed ▸ handles.queuedOnce) fun type => lists type ▸ handles.typedOnce type
  | queue orphans created =>
    exact handles.ageless (.queue orphans created) (fun _ => Or.inl rfl) (fun _ => Or.inl) handles.queuedOnce
      handles.typedOnce
  | @mark id live =>
    refine handles.ageless (.mark live) (fun _ => Or.inl rfl) (fun j member => ?_)
      (pairwise_insert_lt handles.queuedOnce id) handles.typedOnce
    -- What is on the list is the live node that is marked, or was there before.
    rcases Ordered.of_mem_insert member with rfl | before
    · exact Or.inr live
    · exact Or.inl before
  | take =>
    exact handles.ageless .take (fun _ => Or.inl rfl) (by simp) .nil handles.typedOnce
  | @make layout key parentRoot id g' fresh made =>
    have changed : g'.changed = g.changed := (create_pending made).2.2.1
    refine handles.ageless (.make fresh made) (age?_create handles.toArena made) (fun j member => ?_) ?_
      fun type => ?_
    · rw [changed] at member
      exact Or.inl member
    · rw [changed]
      exact handles.queuedOnce
    · -- The handle is put into the list of its type.
      unfold create at made
      cases taken : g.allocate with
      | mk i g₁ =>
        have lists : ∀ type, (g₁.live type).Pairwise fun a b => NodeId.lt a b = true := fun type => by
          rw [Graph.live, (handles.toArena.allocate taken).byType]
          exact handles.typedOnce type
        simp only [taken] at made
        cases made
        by_cases named : type = layout.name
        · subst named
          simp only [Graph.live, Entries.find?_insert_self, Option.getD_some]
          exact pairwise_insert_lt (lists layout.name) id
        · simp only [Graph.live, Entries.find?_insert_of_ne named]
          exact lists type
  | remove live => exact handles.remove live

theorem shifts (handles : Handles past g) {gone : List NodeId} (shifts : Shifts taken gone g g') :
    Handles (past ++ gone) g' := by
  -- The log grows with each change, so the past is not fixed.
  induction shifts generalizing past with
  | refl => rwa [append_nil]
  | cons first _ ih =>
    rw [← append_assoc]
    exact ih (handles.shift first)

/-- A handle that lost its node is dead, as long as its slot was emptied less often than generations come round. -/
theorem node?_eq_none (handles : Handles past g) (lost : id ∈ past) (bound : timesFreed past id.index < 2 ^ 32) :
    g.node? id = none := by
  cases live : g.node? id with
  | none => rfl
  | some n =>
    exfalso
    obtain ⟨age, less, before⟩ := handles.older id lost
    have now := handles.aged _ _ (age?_of_live live)
    -- Both counts are below the bound, so they are told apart by their generations.
    have same := congrArg UInt32.toNat (before.symm.trans now)
    rw [UInt32.toNat_ofNat', UInt32.toNat_ofNat', Nat.mod_eq_of_lt (Nat.lt_trans less bound),
      Nat.mod_eq_of_lt bound] at same
    omega

end Handles

namespace Shifts

variable {taken : Nat} {gone : List NodeId}

theorem single {g' : Graph} (shift : Shift g taken gone g') : Shifts taken gone g g' := by
  have row := Shifts.cons shift (.refl g')
  rwa [append_nil] at row

/-- A node that changes takes no hold. -/
theorem update (id : NodeId) {f : Node → Node}
    (same : ∀ n, (f n).key = n.key ∧ (f n).layout.name = n.layout.name ∧ (f n).holds ≤ n.holds) :
    Shifts 0 [] g (g.update id f) :=
  .single (.update id (fun n => (same n).1) (fun n => (same n).2.1) fun n => (same n).2.2)

theorem trans {more : Nat} {later : List NodeId} {g₁ g₂ g₃ : Graph} (first : Shifts taken gone g₁ g₂)
    (second : Shifts more later g₂ g₃) : Shifts (taken + more) (gone ++ later) g₁ g₃ := by
  induction first with
  | refl =>
    rw [Nat.zero_add]
    exact second
  | cons shift _ ih =>
    rw [append_assoc, Nat.add_assoc]
    exact .cons shift (ih second)

/-- A handle that is live before and dead after lost its node on the way. -/
theorem mem_gone {g' : Graph} (shifts : Shifts taken gone g g') (arena : Arena g) (live : g.contains id = true)
    (dead : g'.contains id = false) : id ∈ gone := by
  induction shifts with
  | refl =>
    rw [live] at dead
    cases dead
  | cons first _ ih =>
    -- It is lost in the first change, or is live for the others.
    rcases first.lost_or_live arena live with lost | live
    · exact mem_append_left _ lost
    · exact mem_append_right _ (ih (first.arena arena) live dead)

theorem held {g' : Graph} (shifts : Shifts taken gone g g') (arena : Arena g)
    (few : ∀ id n, g.node? id = some n → n.holds ≤ most) : ∀ id n, g'.node? id = some n → n.holds ≤ most + taken := by
  induction shifts generalizing most with
  | refl => exact few
  | cons first _ ih =>
    rw [← Nat.add_assoc]
    exact ih (first.arena arena) (first.held arena few)

theorem foldl {step : Graph → NodeId → Graph} (each : ∀ g c, Shifts 0 [] g (step g c)) (g : Graph) (cs : List NodeId) :
    Shifts 0 [] g (cs.foldl step g) := by
  induction cs generalizing g with
  | nil => exact .refl g
  | cons c rest ih => exact (each g c).trans (ih (step g c))

theorem unlink (parent : NodeId) (g : Graph) (child : NodeId) : Shifts 0 [] g (Graph.unlink parent g child) := by
  rw [unlink_eq]
  -- The child forgets the parent, and waits for the sweep if that was the last one.
  have dropped : Shifts 0 [] g (g.update child (·.dropParent parent)) :=
    .update child fun _ => ⟨rfl, rfl, Nat.le_refl _⟩
  have queued := dropped.trans (.single (.queue (if orphaned parent g child then child :: g.orphans else g.orphans)
    (g.update child (·.dropParent parent)).created))
  exact queued

/-- Only live nodes are marked. -/
theorem touch (g : Graph) (id : NodeId) : Shifts 0 [] g (g.touch id) := by
  have general : ∀ (ids : List NodeId) (g : Graph), AllLive g ids → Shifts 0 [] g (ids.foldl noteChange g) := by
    intro ids
    induction ids with
    | nil => exact fun g _ => .refl g
    | cons j rest ih =>
      intro g live
      -- A node loses its snapshot and is put on the list; no handle dies from that.
      have same : ∀ k, (g.update j Node.evict).contains k = g.contains k :=
        (SameCores.update g j (f := Node.evict) fun _ => rfl).contains
      have evicted : Shifts 0 [] g (g.update j Node.evict) := .update j fun _ => ⟨rfl, rfl, Nat.le_refl _⟩
      have still : (g.update j Node.evict).contains j = true := by rw [same]; exact live j (by simp)
      have marked := evicted.trans (.single (.mark still))
      exact marked.trans (ih (g.noteChange j) fun k member => (same k).trans (live k (by simp [member])))
  exact general _ g fun k member => (mem_filter.mp member).2

/-- What absorbing does before its sweep removes nothing. -/
theorem edit {g' : Graph} (edit : Edit g g') : Shifts 0 [] g g' := by
  cases edit with
  | @make _ _ _ id g' fresh made =>
    -- A new node is noted as created and marked as changed.
    have listed : Shifts 0 [] g' { g' with created := id :: g'.created } := .single (.queue _ _)
    exact (Shifts.single (.make fresh made)).trans (listed.trans (.touch _ id))
  | @put id i incoming g' live _ set =>
    obtain ⟨n, there⟩ := contains_iff.mp live
    rcases of_setField there set with ⟨rfl, -⟩ | ⟨current, -, -, rfl⟩
    · exact .refl g'
    · -- Links are dropped, the field is replaced, and links are counted.
      have replaced : ∀ h : Graph, Shifts 0 [] h (h.update id fun n => { n with fields := n.fields.set i incoming }) :=
        fun h => .update id fun _ => ⟨rfl, rfl, Nat.le_refl _⟩
      have linked : ∀ h c, Shifts 0 [] h (Graph.link id h c) := fun h c => .update c fun _ => ⟨rfl, rfl, Nat.le_refl _⟩
      exact (foldl (.unlink id) g _).trans ((replaced _).trans ((foldl linked _ _).trans (.touch _ id)))

theorem edits {g' : Graph} (edits : Edits g g') : Shifts 0 [] g g' := by
  induction edits with
  | refl => exact .refl g
  | tail _ last ih => exact ih.trans (.edit last)

theorem collect (live : g.node? id = some n) : Shifts 0 [id] g (g.collect id) := by
  rw [collect_eq live]
  -- The node goes first, and then its links are dropped.
  exact (Shifts.single (.remove live)).trans (foldl (.unlink id) _ _)

end Shifts

/-- Whatever asks for the node of the handle is turned away, and nothing changes. -/
def Rejects (F : Formulas) (g : Graph) (id : NodeId) : Prop :=
  g.contains id = false ∧ g.node id = .error (.unknownNode id) ∧
    Graph.build F id g = .error (.unknownNode id) g ∧ g.retain id = .error (.unknownNode id) ∧
    g.release id = .error (.unknownNode id)

theorem rejects_of_dead (F : Formulas) (dead : g.node? id = none) : g.Rejects F id := by
  -- Every operation on a handle asks for its node before it does anything.
  have unknown : g.node id = .error (.unknownNode id) := by rw [node, dead]
  refine ⟨by rw [contains, dead]; rfl, unknown, build_of_dead F dead, ?_, ?_⟩
  · rw [retain, unknown]
    rfl
  · rw [release, unknown]
    rfl

/-- The handles whose nodes a sweep removes, in its order. -/
def sweptUpTo : Nat → Graph → List NodeId
  | 0, _ => []
  | fuel + 1, g =>
    match g.orphans.dropWhile fun id => !g.isGarbage id with
    | [] => []
    | id :: rest => id :: sweptUpTo fuel (collect { g with orphans := rest } id)

/-- The handles whose nodes a sweep of all garbage removes. -/
def swept (g : Graph) : List NodeId :=
  sweptUpTo g.liveCount g

theorem Shifts.sweepUpTo (fuel : Nat) (g : Graph) : Shifts 0 (sweptUpTo fuel g) g (sweepUpTo fuel g) := by
  -- Emptying the queue of orphans is no change to slots.
  have queue : ∀ (g : Graph) (orphans : List NodeId), Shifts 0 [] g { g with orphans := orphans } :=
    fun g orphans => .single (.queue orphans g.created)
  induction fuel generalizing g with
  | zero => exact queue g []
  | succ fuel ih =>
    unfold sweptUpTo Graph.sweepUpTo
    cases first : g.orphans.dropWhile fun id => !g.isGarbage id with
    | nil => exact queue g []
    | cons id rest =>
      -- What is garbage is live, so it loses a node.
      have garbage : isGarbage { g with orphans := rest } id = true := (orphans_split first).1
      cases there : Graph.node? { g with orphans := rest } id with
      | none => simp [isGarbage, there] at garbage
      | some n => exact (queue g rest).trans ((Shifts.collect there).trans (ih _))

theorem Shifts.sweep (g : Graph) : Shifts 0 g.swept g g.sweep :=
  .sweepUpTo _ g

/-- A round up to its sweep. -/
def stored (F : Formulas) : Step Diff := do
  let out ← derivations F
  storeResults out.2
  return out.1

theorem round_eq_stored (F : Formulas) :
    round F = do
      let diff ← stored F
      modify sweep
      return diff := by
  simp only [round_eq, stored, bind_assoc, pure_bind]

/-- The handles that lose their nodes in a round. -/
def roundRemoves (F : Formulas) (g : Graph) : List NodeId :=
  match stored F g with
  | .ok _ g' => g'.swept
  | .error _ _ => []

/-- The handles that lose their nodes in an operation, in order: only sweeps remove nodes. -/
def Operation.removes (F : Formulas) (g : Graph) : Operation → List NodeId
  | .absorb r parentRoot =>
    match absorbAt r parentRoot 0 g with
    | .ok _ g' => swept { g' with created := [] }
    | .error _ g' => swept { g' with created := [], orphans := g'.created ++ g'.orphans }
  | .release id =>
    if g.contains id then
      let h := g.update id fun n => { n with holds := n.holds - 1 }
      swept { h with orphans := id :: h.orphans }
    else []
  | .settle contextual =>
    (roundStarts (F.withContextual contextual) g.maxRounds g).flatMap
      (roundRemoves (F.withContextual contextual))
  | .retain _ | .build _ | .invalidate _ | .takePrevious _ => []

/-- A round up to its sweep removes no node. -/
theorem Sound.stored (sound : Sound g) (F : Formulas) :
    Ends (stored F) g (fun _ g' => Sound g' ∧ Shifts 0 [] g g') fun _ g' => Shifts 0 [] g g' := by
  have ends := sound.derived F
  unfold Graph.stored
  refine Ends.bind ?_
  unfold Ends at ends ⊢
  cases result : derivations F g with
  | error e g' => rw [result] at ends; cases ends
  | ok out g₁ =>
    rw [result] at ends
    -- Nodes are taken off their list and built, which spares all of them.
    have queued : Quiet { g with changed := [] } g := .pending { g with changed := [] } g.changed g.orphans g.created
    have spares := (Shifts.single .take).trans (.single (.build ends.twins (queued.trans ends.toQuiet)))
    -- The tasks are those of live nodes, into which the results are stored.
    have sound₁ := sound.quiet ends.toQuiet
    have stored := storeResults_traces sound₁ fun e listed => sound₁.toArena.find?_keyOf (ends.live e listed)
    refine Ends.bind (Ends.mono stored ?_ ?_)
    · rintro _ g₂ ⟨performs, -⟩
      exact ⟨(performs.sound sound₁).1, spares.trans (.edits (performs.edits sound₁))⟩
    · rintro e g₂ ⟨-, done, -, performs⟩
      exact spares.trans (.edits (performs.edits sound₁))

/-- A round removes what its sweep removes. -/
theorem Sound.shifts_round (sound : Sound g) (F : Formulas) :
    Ends (Graph.round F) g (fun _ g' => Sound g' ∧ Shifts 0 (roundRemoves F g) g g')
      fun _ g' => Shifts 0 (roundRemoves F g) g g' := by
  have ends := sound.stored F
  rw [round_eq_stored]
  refine Ends.bind ?_
  unfold Ends roundRemoves at *
  cases result : Graph.stored F g with
  -- A round that fails does not come to its sweep.
  | error e g' =>
    rw [result] at ends
    exact ends
  | ok diff g' =>
    rw [result] at ends
    exact ⟨ends.1.sweep.sound, ends.2.trans (.sweep g')⟩

/-- Rounds remove what each of them removes. -/
theorem Sound.shifts_rounds (sound : Sound g) (F : Formulas) (left : Nat) (total : Diff) :
    Ends (Graph.rounds F left total) g
      (fun _ g' => Shifts 0 ((roundStarts F left g).flatMap (roundRemoves F)) g g')
      fun _ g' => Shifts 0 ((roundStarts F left g).flatMap (roundRemoves F)) g g' := by
  induction left generalizing g total with
  | zero =>
    rw [Graph.rounds]
    refine Ends.bind ?_
    change Ends (if g.changed.isEmpty then _ else _) g _ _
    split
    · exact Shifts.refl g
    · exact Ends.throw (Shifts.refl g)
  | succ left ih =>
    rw [Graph.rounds]
    refine Ends.bind ?_
    change Ends (if g.changed.isEmpty then _ else _) g _ _
    split
    · rename_i settled
      simp only [roundStarts, settled, if_true, flatMap_nil]
      exact Shifts.refl g
    · -- The first round starts here, and the others where it ends.
      rename_i queued
      have ends := sound.shifts_round F
      refine Ends.bind ?_
      simp only [roundStarts, queued, Bool.false_eq_true, if_false, flatMap_cons]
      unfold Ends at ends ⊢
      cases result : Graph.round F g with
      | error e g' =>
        rw [result] at ends
        simpa using ends
      | ok diff g' =>
        rw [result] at ends
        exact (ih ends.1 (total.merge diff)).mono (fun _ _ later => ends.2.trans later) fun _ _ later =>
          ends.2.trans later

/-- The number of holds that an operation takes if it succeeds. -/
def Operation.retains : Operation → Nat
  | .retain _ => 1
  | _ => 0

/-- Every operation is a row of changes to slots and tables, which removes the nodes of the logged handles. -/
theorem Operation.shifts (sound : Sound g) (F : Formulas) (op : Operation) :
    Shifts op.retains (op.removes F g) g (op.apply F g) := by
  cases op with
  | absorb r parentRoot =>
    have ends := absorbAt_traces r parentRoot 0 g sound
    simp only [removes, apply, Step.after, Graph.absorb]
    unfold Traces Ends at ends
    -- It ends with a sweep in both cases; after a failure all that was created waits for it.
    cases result : absorbAt r parentRoot 0 g with
    | ok id merged =>
      rw [result] at ends
      have edits := ends.1.edits sound
      exact (Shifts.edits edits).trans ((Shifts.single (.queue merged.orphans [])).trans (.sweep _))
    | error e merged =>
      rw [result] at ends
      obtain ⟨-, done, -, performs⟩ := ends
      exact (Shifts.edits (performs.edits sound)).trans
        ((Shifts.single (.queue (merged.created ++ merged.orphans) [])).trans (.sweep _))
  | retain id =>
    change Shifts 1 [] g _
    exact apply_retain (.single (.rest 1)) fun _ =>
      .single (.update id (fun _ => rfl) (fun _ => rfl) fun _ => Nat.le_refl _)
  | release id =>
    cases found : g.node? id with
    | none =>
      -- A dead handle is turned away.
      simp only [removes, contains, found, apply, Step.after, Step.change, (rejects_of_dead F found).2.2.2.2]
      exact .refl g
    | some n =>
      -- A live node loses a hold before the sweep.
      have released : Shifts 0 [] g (g.update id fun n => { n with holds := n.holds - 1 }) :=
        .update id fun _ => ⟨rfl, rfl, Nat.sub_le _ 1⟩
      have live : g.node id = .ok n := by rw [node, found]
      simp only [removes, contains, found, Option.isSome_some, if_true, apply, Step.after, Step.change, Graph.release,
        live, bind, Except.bind, pure, Except.pure]
      exact released.trans ((Shifts.single (.queue _ _)).trans (.sweep _))
  | build id =>
    change Shifts 0 [] g _
    exact apply_build sound (.refl g) fun _ _ built => .single (.build built.twins built.toQuiet)
  | invalidate id =>
    change Shifts 0 [] g _
    exact apply_invalidate (.refl g) fun _ => .touch g id
  | takePrevious id => exact .update id fun _ => ⟨rfl, rfl, Nat.le_refl _⟩
  | settle contextual =>
    have ends := sound.shifts_rounds (F.withContextual contextual) g.maxRounds Diff.empty
    exact Step.Ends.after (m := Graph.settle _) (Ends.bind ends) (fun _ _ shifts => shifts) fun _ _ shifts => shifts

/-- The graph after a row of operations. -/
def run (F : Formulas) (g : Graph) (ops : List Operation) : Graph :=
  ops.foldl (Operation.apply F) g

/-- The handles that lose their nodes in a row of operations, in order. -/
def removals (F : Formulas) : Graph → List Operation → List NodeId
  | _, [] => []
  | g, op :: rest => op.removes F g ++ removals F (op.apply F g) rest

/-- The number of holds that a row of operations takes at most. -/
def retains : List Operation → Nat
  | [] => 0
  | op :: rest => op.retains + retains rest

/-- A row of operations removes the nodes of the logged handles. -/
theorem Sound.run (sound : Sound g) (F : Formulas) (ops : List Operation) :
    Sound (run F g ops) ∧ Shifts (retains ops) (removals F g ops) g (run F g ops) := by
  induction ops generalizing g with
  | nil => exact ⟨sound, .refl g⟩
  | cons op rest ih =>
    obtain ⟨sound', later⟩ := ih (sound.apply F op)
    exact ⟨sound', (op.shifts sound F).trans later⟩

theorem run_append (F : Formulas) (g : Graph) (first rest : List Operation) :
    run F g (first ++ rest) = run F (run F g first) rest :=
  foldl_append

theorem removals_append (F : Formulas) (g : Graph) (first rest : List Operation) :
    removals F g (first ++ rest) = removals F g first ++ removals F (run F g first) rest := by
  induction first generalizing g with
  | nil => rfl
  | cons op later ih =>
    rw [cons_append, removals, removals, ih, append_assoc]
    rfl

/-- The number of elements that pass a test is the number of their positions. -/
theorem countP_eq_length_positions (test : α → Bool) (items : List α) :
    items.countP test = ((List.range items.length).filter fun i => items[i]?.any test).length := by
  induction items with
  | nil => rfl
  | cons a rest ih =>
    -- The first position is looked at by itself, and the others are one further on.
    rw [length_cons, range_succ_eq_map, filter_cons, filter_map, countP_cons, ih]
    cases passes : test a with
    | true => simp [passes, Function.comp_def]
    | false => simp [passes, Function.comp_def]

/-- A slot has one live handle. -/
theorem eq_of_live {a b : NodeId} {m : Node} (here : g.node? a = some n) (there : g.node? b = some m)
    (index : a.index = b.index) : a = b := by
  rw [node?_eq_some_iff] at here there
  rw [index, there] at here
  -- Other handles of the slot have other generations.
  by_contra other
  exact NodeId.generation_ne (fun same => other same.symm) index
    (by simpa using (congrArg (Option.map Slot.generation) here).symm)

/-- The index has one entry for each live node. -/
theorem Arena.size_eq (arena : Arena g) : g.size = g.liveCount := by
  -- The entries stand for the occupied slots, each once.
  have once : (g.index.map fun e => e.2.index).Nodup := by
    refine List.Nodup.map_on (fun a first b second same => ?_) (List.Nodup.of_map _ arena.indexOnce)
    obtain ⟨n, here, keyed⟩ := (arena.index a.1 a.2).mp first
    obtain ⟨m, there, keyed'⟩ := (arena.index b.1 b.2).mp second
    have handle := eq_of_live here there same
    rw [handle, there] at here
    cases here
    exact Prod.ext (keyed.symm.trans keyed') handle
  have listed : ∀ i, i ∈ (g.index.map fun e => e.2.index) ↔
      i ∈ (List.range g.slots.length).filter fun i => g.slots[i]?.any fun s => s.node.isSome := by
    intro i
    rw [mem_map, mem_filter, mem_range]
    constructor
    · rintro ⟨e, entry, rfl⟩
      obtain ⟨n, live, -⟩ := (arena.index e.1 e.2).mp entry
      have slot := node?_eq_some_iff.mp live
      exact ⟨(List.getElem?_eq_some_iff.mp slot).1, by simp [slot]⟩
    · rintro ⟨inside, occupied⟩
      obtain ⟨⟨u, node⟩, slot, holds⟩ := (Option.any_eq_true _ _).mp occupied
      obtain ⟨n, rfl⟩ := Option.isSome_iff_exists.mp holds
      exact ⟨(n.key, ⟨i, u⟩), (arena.index _ _).mpr ⟨n, node?_eq_some_iff.mpr slot, rfl⟩, rfl⟩
  have perm := (perm_ext_iff_of_nodup once (nodup_range.filter _)).mpr listed
  rw [size, liveCount, countP_eq_length_positions, ← perm.length_eq, length_map]

/-- The index, the types, the free list and the list of changes agree with the nodes in the slots. -/
structure Consistent (g : Graph) : Prop where
  /-- A key leads to a handle exactly if the handle is live and its node has the key. -/
  index : ∀ key id, g.find? key = some id ↔ ∃ n, g.node? id = some n ∧ n.key = key
  /-- There are as many entities as live nodes. -/
  size : g.size = g.liveCount
  /-- The nodes of a type are its live nodes, each listed once. -/
  types : ∀ type, (g.live type).Nodup ∧ ∀ id, id ∈ g.live type ↔ ∃ n, g.node? id = some n ∧ n.layout.name = type
  /-- The free list has the empty slots, each once. -/
  free : g.free.Nodup ∧ ∀ i, i ∈ g.free ↔ ∃ u, g.slots[i]? = some ⟨u, none⟩
  /-- Only live nodes are marked as changed, each once. -/
  changed : g.changed.Nodup ∧ ∀ id ∈ g.changed, g.contains id = true

theorem nodup_of_sorted (sorted : ids.Pairwise fun a b => NodeId.lt a b = true) : ids.Nodup :=
  sorted.imp fun {a b} before same => by
    rw [same, NodeId.lt_irrefl] at before
    cases before

theorem Handles.consistent {past : List NodeId} (handles : Handles past g) : Consistent g where
  index key id := by
    refine ⟨handles.toArena.of_find?, ?_⟩
    rintro ⟨n, live, rfl⟩
    exact handles.toArena.find? live
  size := handles.toArena.size_eq
  types type := ⟨nodup_of_sorted (handles.typedOnce type), handles.typed type⟩
  free := ⟨handles.freeOnce, handles.free⟩
  changed := ⟨nodup_of_sorted handles.queuedOnce, handles.queued⟩

/-- After every row of operations, successful or not, the tables agree with the live nodes. The log has every handle
that was live and no longer is, and counts what generations count. Its handles are turned away from then on, as long as
their slots are emptied less than 2^32 times. -/
theorem handles_of_run (F : Formulas) (s : Schema) (maxRounds : Nat) (first rest : List Operation) :
    Consistent (run F (Graph.empty s maxRounds) (first ++ rest)) ∧
    (∀ id, (run F (Graph.empty s maxRounds) first).contains id = true →
      (run F (Graph.empty s maxRounds) (first ++ rest)).contains id = false →
      id ∈ removals F (Graph.empty s maxRounds) (first ++ rest)) ∧
    (∀ i u n, (run F (Graph.empty s maxRounds) (first ++ rest)).slots[i]? = some ⟨u, n⟩ →
      u = UInt32.ofNat (timesFreed (removals F (Graph.empty s maxRounds) (first ++ rest)) i)) ∧
    ∀ id ∈ removals F (Graph.empty s maxRounds) first,
      timesFreed (removals F (Graph.empty s maxRounds) (first ++ rest)) id.index < 2 ^ 32 →
      (run F (Graph.empty s maxRounds) (first ++ rest)).Rejects F id := by
  obtain ⟨sound, begun⟩ := (Sound.empty s maxRounds).run F first
  obtain ⟨-, later⟩ := sound.run F rest
  -- What was removed so far is a first part of what is removed in the whole run.
  have handles := ((Handles.empty s maxRounds).shifts begun).shifts later
  rw [nil_append, ← removals_append, ← run_append] at handles
  rw [← run_append] at later
  refine ⟨handles.consistent, fun id live dead => ?_, fun i u n slot => ?_, fun id lost bound => ?_⟩
  · -- A handle that is live after the first part is lost in the second.
    rw [removals_append]
    exact mem_append_right _ (later.mem_gone sound.toArena live dead)
  · exact handles.aged i u (by rw [age?, slot]; rfl)
  · refine rejects_of_dead F (handles.node?_eq_none ?_ bound)
    rw [removals_append]
    exact mem_append_left _ lost

/-- The handle of an item that was let go stays dead when another item takes its slot. -/
theorem handles_of_run_reused :
    removals noFormulas (Graph.empty chainSchema defaultRounds)
      [.absorb (chainItem "a" .absent .absent) none, .release ⟨0, 0⟩] = [⟨0, 0⟩] ∧
    (run noFormulas (Graph.empty chainSchema defaultRounds) ([.absorb (chainItem "a" .absent .absent) none,
      .release ⟨0, 0⟩] ++ [.absorb (chainItem "b" .absent .absent) none])).contains ⟨0, 1⟩ = true ∧
    (run noFormulas (Graph.empty chainSchema defaultRounds) ([.absorb (chainItem "a" .absent .absent) none,
      .release ⟨0, 0⟩] ++ [.absorb (chainItem "b" .absent .absent) none])).Rejects noFormulas ⟨0, 0⟩ := by
  have log : removals noFormulas (Graph.empty chainSchema defaultRounds)
      [.absorb (chainItem "a" .absent .absent) none, .release ⟨0, 0⟩] = [⟨0, 0⟩] := by decide +kernel
  have live : (run noFormulas (Graph.empty chainSchema defaultRounds) ([.absorb (chainItem "a" .absent .absent) none,
      .release ⟨0, 0⟩] ++ [.absorb (chainItem "b" .absent .absent) none])).contains ⟨0, 1⟩ = true := by decide +kernel
  refine ⟨log, live, (handles_of_run noFormulas chainSchema defaultRounds _ _).2.2.2 ⟨0, 0⟩ (by simp [log]) ?_⟩
  decide +kernel

/-- Counters after a row of operations: an index is below the number of slots, a node is held at most as often as nodes
were retained, and a parent is counted at most as often as it has links. So 32 bits are enough while there are fewer
than 2^32 slots, retains, and links of a node. -/
theorem counters_of_run (F : Formulas) (s : Schema) (maxRounds : Nat) (ops : List Operation)
    (live : (run F (Graph.empty s maxRounds) ops).node? id = some n) :
    id.index < (run F (Graph.empty s maxRounds) ops).slots.length ∧ n.holds ≤ retains ops ∧
      ∀ parent count, n.parents.lookup parent = some count →
        count ≤ ((run F (Graph.empty s maxRounds) ops).outgoing parent).length := by
  obtain ⟨sound, shifts⟩ := (Sound.empty s maxRounds).run F ops
  refine ⟨(List.getElem?_eq_some_iff.mp (node?_eq_some_iff.mp live)).1, ?_, fun parent count found => ?_⟩
  · -- No node is there at first, so that none is held.
    have none : ∀ id n, (Graph.empty s maxRounds).node? id = some n → n.holds ≤ 0 := by
      intro id n there
      simp [node?_eq_some_iff, Graph.empty] at there
    have bound := shifts.held (.empty s maxRounds) none id n live
    rwa [Nat.zero_add] at bound
  · rw [(sound.counted id n live).entry parent] at found
    split at found
    · cases found
    · cases found
      exact count_le_length

end Graph

end EntityGraph
