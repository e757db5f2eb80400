import EntityGraph.Graph.Basic
import EntityGraph.Proofs.Ordered

/-! Slots and handles: what updating, making and removing a node do to the nodes, the index, the nodes of each type
and the empty slots. -/

namespace EntityGraph

open List

variable {a b : NodeId}

/-- Handles that are not in order either way are the same. -/
theorem NodeId.eq_of_not_lt (left : NodeId.lt a b = false) (right : NodeId.lt b a = false) : a = b := by
  rcases a with ⟨i, u⟩
  rcases b with ⟨j, v⟩
  simp only [NodeId.lt, Bool.or_eq_false_iff, Bool.and_eq_false_iff, decide_eq_false_iff_not, beq_eq_false_iff_ne]
    at left right
  -- Neither slot comes first, so the slots agree and the generations decide.
  have slot : i = j := by omega
  subst slot
  have generation : u = v := by
    apply UInt32.le_antisymm
    · exact UInt32.not_lt.mp (by simpa using right.2)
    · exact UInt32.not_lt.mp (by simpa using left.2)
  rw [generation]

theorem NodeId.lt_irrefl (a : NodeId) : NodeId.lt a a = false := by
  simp [NodeId.lt]

theorem NodeId.lt_trans {c : NodeId} (first : NodeId.lt a b = true) (second : NodeId.lt b c = true) :
    NodeId.lt a c = true := by
  simp only [NodeId.lt, Bool.or_eq_true, Bool.and_eq_true, decide_eq_true_eq, beq_iff_eq] at first second ⊢
  rcases first with before | ⟨same, before⟩
  · exact Or.inl (by omega)
  · rcases second with after | ⟨same', after⟩
    · exact Or.inl (by omega)
    · exact Or.inr ⟨same.trans same', UInt32.lt_trans before after⟩

theorem NodeId.generation_ne (ne : b ≠ a) (index : a.index = b.index) : a.generation ≠ b.generation := by
  intro generation
  rcases a with ⟨i, u⟩
  rcases b with ⟨j, v⟩
  exact ne (by rw [show j = i from index.symm, show v = u from generation.symm])

namespace Graph

variable {g g' : Graph} {id : NodeId} {n : Node} {key : Key} {layout : Layout} {parentRoot : Option NodeId}

/-- A handle is live exactly when its slot holds a node of its generation. -/
theorem node?_eq_some_iff : g.node? id = some n ↔ g.slots[id.index]? = some ⟨id.generation, some n⟩ := by
  unfold node? guard
  cases slot : g.slots[id.index]? with
  | none => simp
  | some s =>
    rcases s with ⟨u, m⟩
    simp only [Option.bind_eq_bind, Option.bind_some, Option.some.injEq, Slot.mk.injEq]
    -- A handle of an older generation finds the slot and is turned away.
    by_cases current : u = id.generation
    · simp [current]
    · simp [current, failure]

theorem node?_eq_none_of_empty {u : UInt32} (empty : g.slots[id.index]? = some ⟨u, none⟩) : g.node? id = none := by
  cases found : g.node? id with
  | none => rfl
  | some n =>
    rw [node?_eq_some_iff, empty] at found
    cases found

/-- A handle is live if it has a node. -/
theorem contains_iff : g.contains id = true ↔ ∃ n, g.node? id = some n := by
  simp [contains, Option.isSome_iff_exists]

/-- Updating a node leaves every other handle as it was. -/
theorem node?_update (g : Graph) (id : NodeId) (f : Node → Node) (j : NodeId) :
    (g.update id f).node? j = if j = id then (g.node? id).map f else g.node? j := by
  unfold update
  cases found : g.node? id with
  | none =>
    -- A dead handle changes nothing.
    by_cases same : j = id
    · simp [same, found]
    · simp [same]
  | some n =>
    have slot := node?_eq_some_iff.mp found
    have inside : id.index < g.slots.length := (List.getElem?_eq_some_iff.mp slot).1
    by_cases same : j = id
    · -- The slot holds what the update made of the node.
      subst same
      simp only [if_pos, Option.map_some]
      rw [node?_eq_some_iff]
      simp [inside]
    · simp only [if_neg same]
      apply Option.ext
      intro m
      rw [node?_eq_some_iff, node?_eq_some_iff]
      by_cases index : id.index = j.index
      · -- Another handle of the same slot has another generation, before and after.
        rw [← index, getElem?_set_self inside, slot]
        simp [NodeId.generation_ne same index]
      · simp [index]

/-- What a change keeps can still be read. -/
theorem map_node?_update (g : Graph) (id : NodeId) (f : Node → Node) (read : Node → α)
    (keeps : ∀ n, read (f n) = read n) (j : NodeId) : ((g.update id f).node? j).map read = (g.node? j).map read := by
  rw [node?_update]
  split
  · rename_i same
    subst same
    cases g.node? j with
    | none => rfl
    | some n => simp [keeps]
  · rfl

theorem bind_node?_update (g : Graph) (id : NodeId) (f : Node → Node) (read : Node → Option α)
    (keeps : ∀ n, read (f n) = read n) (j : NodeId) : ((g.update id f).node? j).bind read = (g.node? j).bind read := by
  have same := congrArg (fun m : Option (Option α) => m.bind fun o => o) (map_node?_update g id f read keeps j)
  simpa only [Option.bind_map, Function.comp_def] using same

/-- Updating a node leaves the empty slots as they are. -/
theorem slots_update_empty (g : Graph) (id : NodeId) (f : Node → Node) (i : Nat) (u : UInt32) :
    (g.update id f).slots[i]? = some ⟨u, none⟩ ↔ g.slots[i]? = some ⟨u, none⟩ := by
  unfold update
  cases found : g.node? id with
  | none => simp
  | some n =>
    have slot := node?_eq_some_iff.mp found
    have inside : id.index < g.slots.length := (List.getElem?_eq_some_iff.mp slot).1
    by_cases index : id.index = i
    · -- The slot is occupied before and after.
      subst index
      rw [getElem?_set_self inside, slot]
      simp
    · simp [index]

/-- Updating a node changes no number of nodes. -/
theorem liveCount_update (g : Graph) (id : NodeId) (f : Node → Node) : (g.update id f).liveCount = g.liveCount := by
  unfold update
  cases found : g.node? id with
  | none => rfl
  | some n =>
    have slot := node?_eq_some_iff.mp found
    obtain ⟨inside, here⟩ := List.getElem?_eq_some_iff.mp slot
    have positive : 0 < g.slots.countP fun s => s.node.isSome :=
      countP_pos_iff.mpr ⟨_, mem_of_getElem? slot, rfl⟩
    -- One occupied slot is replaced by another.
    simp only [liveCount, countP_set inside, here, Option.isSome_some, if_true]
    omega

section update

variable (g : Graph) (id : NodeId) (f : Node → Node)

@[simp] theorem update_schema : (g.update id f).schema = g.schema := by unfold update; split <;> rfl
@[simp] theorem update_maxRounds : (g.update id f).maxRounds = g.maxRounds := by unfold update; split <;> rfl
@[simp] theorem update_free : (g.update id f).free = g.free := by unfold update; split <;> rfl
@[simp] theorem update_index : (g.update id f).index = g.index := by unfold update; split <;> rfl
@[simp] theorem update_byType : (g.update id f).byType = g.byType := by unfold update; split <;> rfl
@[simp] theorem update_changed : (g.update id f).changed = g.changed := by unfold update; split <;> rfl
@[simp] theorem update_orphans : (g.update id f).orphans = g.orphans := by unfold update; split <;> rfl
@[simp] theorem update_created : (g.update id f).created = g.created := by unfold update; split <;> rfl

@[simp] theorem update_live (type : String) : (g.update id f).live type = g.live type := by
  simp [live]

end update

/-- The tables of a graph agree with its slots. -/
structure Arena (g : Graph) : Prop where
  /-- The free list holds exactly the empty slots. -/
  free : ∀ i, i ∈ g.free ↔ ∃ u, g.slots[i]? = some ⟨u, none⟩
  /-- It holds each of them once. -/
  freeOnce : g.free.Nodup
  /-- The index binds the keys of the live nodes to their handles. -/
  index : ∀ key id, (key, id) ∈ g.index ↔ ∃ n, g.node? id = some n ∧ n.key = key
  /-- It binds each key once. -/
  indexOnce : (g.index.map Prod.fst).Nodup
  /-- The nodes of a type are the live nodes with a layout of that name. -/
  typed : ∀ type id, id ∈ g.live type ↔ ∃ n, g.node? id = some n ∧ n.layout.name = type

@[simp] theorem node?_empty (schema : Schema) (maxRounds : Nat) (id : NodeId) :
    (Graph.empty schema maxRounds).node? id = none := rfl

theorem Arena.empty (schema : Schema) (maxRounds : Nat) : Arena (Graph.empty schema maxRounds) where
  free := by simp [Graph.empty]
  freeOnce := by simp [Graph.empty]
  index := by intro key id; rw [node?_empty]; simp [Graph.empty]
  indexOnce := by simp [Graph.empty]
  typed := by intro type id; rw [node?_empty]; simp [Graph.empty, live, Entries.find?]

/-- The arena is a matter of the slots, the free list, the index and the types alone. -/
theorem Arena.congr (arena : Arena g) (slots : g'.slots = g.slots) (free : g'.free = g.free)
    (index : g'.index = g.index) (byType : g'.byType = g.byType) : Arena g' := by
  -- A handle is looked up in the slots and nowhere else.
  have nodes : ∀ id, g'.node? id = g.node? id := fun id => by unfold node?; rw [slots]
  constructor
  · simpa [free, slots] using arena.free
  · simpa [free] using arena.freeOnce
  · simpa [index, nodes] using arena.index
  · simpa [index] using arena.indexOnce
  · simpa [live, byType, nodes] using arena.typed

/-- An update that keeps the key and the type name keeps the tables right. -/
theorem Arena.update (arena : Arena g) (id : NodeId) {f : Node → Node} (key : ∀ n, (f n).key = n.key)
    (name : ∀ n, (f n).layout.name = n.layout.name) : Arena (g.update id f) := by
  -- Whatever is asked of a node by key or by type name has the same answer as before.
  have same : ∀ (j : NodeId) (p : Node → Prop), (∀ n, p (f n) ↔ p n) →
      ((∃ n, (g.update id f).node? j = some n ∧ p n) ↔ ∃ n, g.node? j = some n ∧ p n) := by
    intro j p keeps
    rw [node?_update]
    split
    · rename_i equal
      subst equal
      cases g.node? j with
      | none => simp
      | some n => simp [keeps]
    · rfl
  constructor
  · intro i
    simp only [update_free, slots_update_empty]
    exact arena.free i
  · simpa using arena.freeOnce
  · intro k j
    rw [update_index, arena.index, same j (fun n => n.key = k) (fun n => by rw [key])]
  · simpa using arena.indexOnce
  · intro type j
    rw [update_live, arena.typed, same j (fun n => n.layout.name = type) (fun n => by rw [name])]

/-- What is found by a key is a live node of the key. -/
theorem Arena.of_find? (arena : Arena g) (found : g.find? key = some id) : ∃ n, g.node? id = some n ∧ n.key = key :=
  (arena.index key id).mp (mem_of_lookup found)

/-- A live node is found by its key. -/
theorem Arena.find? (arena : Arena g) (live : g.node? id = some n) : g.find? n.key = some id :=
  lookup_of_mem arena.indexOnce ((arena.index n.key id).mpr ⟨n, live, rfl⟩)

/-- The key of a live node. -/
def keyOf (g : Graph) (id : NodeId) : Key :=
  ((g.node? id).map Node.key).getD ⟨[]⟩

theorem Arena.find?_keyOf (arena : Arena g) (live : g.contains id = true) : g.find? (g.keyOf id) = some id := by
  obtain ⟨n, found⟩ := contains_iff.mp live
  rw [keyOf, found]
  exact arena.find? found

/-- The slot that the next node gets is empty, and nothing but the free list tells that it was taken. -/
structure Allocated (g : Graph) (id : NodeId) (g' : Graph) : Prop where
  slot : g'.slots[id.index]? = some ⟨id.generation, none⟩
  nodes : ∀ j, g'.node? j = g.node? j
  free : ∀ i, i ∈ g'.free ↔ i ≠ id.index ∧ ∃ u, g'.slots[i]? = some ⟨u, none⟩
  freeOnce : g'.free.Nodup
  index : g'.index = g.index
  byType : g'.byType = g.byType

/-- A slot is taken from the free list, or added at the end if there is none. -/
theorem Arena.allocate (arena : Arena g) (taken : g.allocate = (id, g')) : Allocated g id g' := by
  unfold Graph.allocate at taken
  have once := arena.freeOnce
  have empty := arena.free
  cases free : g.free with
  | cons i rest =>
    -- A slot emptied before is used again, and leaves the free list.
    rw [free] at taken once
    simp only [free, mem_cons] at empty
    obtain ⟨u, slot⟩ := (empty i).mp (Or.inl rfl)
    cases taken
    refine ⟨by simp [slot], fun _ => rfl, fun j => ?_, (nodup_cons.mp once).2, rfl, rfl⟩
    constructor
    · -- The slot that was taken is not on the list a second time.
      intro member
      refine ⟨?_, (empty j).mp (Or.inr member)⟩
      rintro rfl
      exact (nodup_cons.mp once).1 member
    · rintro ⟨ne, vacant⟩
      exact ((empty j).mpr vacant).resolve_left ne
  | nil =>
    -- Without one the slots grow by one at the end.
    rw [free] at taken
    have occupied : ∀ (i : Nat) (u : UInt32), g.slots[i]? ≠ some (Slot.mk u none) := by
      intro i u slot
      have member := (empty i).mpr ⟨u, slot⟩
      simp [free] at member
    cases taken
    refine ⟨by simp, fun j => ?_, fun i => ?_, by simp, rfl, rfl⟩
    · -- No handle was live at the end, and none is in the new slot.
      apply Option.ext
      intro n
      rw [node?_eq_some_iff, node?_eq_some_iff, getElem?_append]
      split
      · rfl
      · rename_i outside
        rw [getElem?_eq_none (by omega : g.slots.length ≤ j.index), getElem?_singleton]
        split <;> simp
    · simp only [not_mem_nil, false_iff, not_and, not_exists]
      intro ne u slot
      rw [getElem?_append] at slot
      split at slot
      · exact occupied i u slot
      · -- Past the old slots there is only the new one.
        rw [getElem?_singleton, if_neg (by omega)] at slot
        cases slot

/-- Making a node leaves the settings and what is pending alone. -/
theorem create_pending (made : g.create layout key parentRoot = (id, g')) :
    g'.schema = g.schema ∧ g'.maxRounds = g.maxRounds ∧ g'.changed = g.changed ∧ g'.orphans = g.orphans ∧
      g'.created = g.created := by
  unfold create allocate at made
  cases free : g.free with
  | nil => rw [free] at made; cases made; exact ⟨rfl, rfl, rfl, rfl, rfl⟩
  | cons i rest => rw [free] at made; cases made; exact ⟨rfl, rfl, rfl, rfl, rfl⟩

/-- The root of a node that is made: itself if it is identifiable, else the given one. -/
def rootFor (layout : Layout) (id : NodeId) (parentRoot : Option NodeId) : NodeId :=
  if layout.identifiable then id else parentRoot.getD id

/-- The node that is made is live and empty, its handle was not live before, and no other handle changes. -/
theorem Arena.node?_create (arena : Arena g) (made : g.create layout key parentRoot = (id, g')) :
    g.node? id = none ∧ ∀ j, g'.node? j =
      if j = id then some (Node.new layout key (rootFor layout id parentRoot)) else g.node? j := by
  unfold create at made
  cases taken : g.allocate with
  | mk i g₁ =>
    have place := arena.allocate taken
    simp only [taken] at made
    cases made
    have inside : id.index < g₁.slots.length := (List.getElem?_eq_some_iff.mp place.slot).1
    refine ⟨by rw [← place.nodes, node?_eq_none_of_empty place.slot], fun j => ?_⟩
    by_cases same : j = id
    · subst same
      rw [if_pos rfl, node?_eq_some_iff]
      simp [inside, rootFor]
    · -- Allocating changed no handle, so only writing the slot is left to look at.
      rw [if_neg same, ← place.nodes]
      apply Option.ext
      intro m
      rw [node?_eq_some_iff, node?_eq_some_iff]
      by_cases slot : id.index = j.index
      · -- Another handle of the slot has another generation, and found nothing there before.
        rw [← slot, getElem?_set_self inside, place.slot]
        simp [NodeId.generation_ne same slot]
      · simp [slot]

/-- Making a node of a new key keeps the tables right. -/
theorem Arena.create (arena : Arena g) (fresh : g.find? key = none) (made : g.create layout key parentRoot = (id, g')) :
    Arena g' := by
  obtain ⟨dead, nodes⟩ := arena.node?_create made
  -- What holds of some live node holds of the new one, or of one that was there.
  have either : ∀ (j : NodeId) (p : Node → Prop), (∃ n, g'.node? j = some n ∧ p n) ↔
      (j = id ∧ p (Node.new layout key (rootFor layout id parentRoot))) ∨ ∃ n, g.node? j = some n ∧ p n := by
    intro j p
    rw [nodes]
    by_cases same : j = id
    · simp [same, dead]
    · simp [same]
  unfold Graph.create at made
  cases taken : g.allocate with
  | mk i g₁ =>
    have place := arena.allocate taken
    simp only [taken] at made
    cases made
    have inside : id.index < g₁.slots.length := (List.getElem?_eq_some_iff.mp place.slot).1
    constructor
    · -- The slot of the new node is off the free list and no longer empty.
      intro i
      rw [place.free]
      by_cases here : id.index = i
      · subst here
        simp [inside]
      · simp [here, Ne.symm here]
    · exact place.freeOnce
    · intro k j
      rw [either j (fun n => n.key = k), ← arena.index, place.index]
      simp only [mem_cons, Prod.mk.injEq, Node.new]
      tauto
    · -- The key was not bound before.
      simp only [map_cons, nodup_cons, place.index]
      refine ⟨?_, arena.indexOnce⟩
      intro member
      obtain ⟨entry, bound, rfl⟩ := mem_map.mp member
      have found := lookup_of_mem arena.indexOnce bound
      rw [Graph.find?, found] at fresh
      cases fresh
    · -- The handle joins the nodes of its own type.
      intro type j
      rw [either j (fun n => n.layout.name = type), ← arena.typed]
      have lists : g₁.live layout.name = g.live layout.name := by simp [live, place.byType]
      by_cases named : type = layout.name
      · subst named
        simp only [live, Entries.find?_insert_self, Option.getD_some,
          Ordered.mem_insert (fun _ _ => NodeId.eq_of_not_lt)]
        simp [place.byType, Node.new]
      · simp only [live, Entries.find?_insert_of_ne named, place.byType]
        simp [Node.new, Ne.symm named]

/-- The node that is removed is dead, and no other handle changes. -/
theorem node?_remove (found : g.node? id = some n) (j : NodeId) :
    (g.remove id n).node? j = if j = id then none else g.node? j := by
  have slot := node?_eq_some_iff.mp found
  have inside : id.index < g.slots.length := (List.getElem?_eq_some_iff.mp slot).1
  by_cases index : id.index = j.index
  · -- The slot is empty now, and before it held the removed node only.
    have gone : (g.remove id n).node? j = none := by
      apply node?_eq_none_of_empty
      simp only [remove, ← index]
      rw [getElem?_set_self inside]
    rw [gone]
    split
    · rfl
    · rename_i other
      symm
      rw [Option.eq_none_iff_forall_not_mem]
      intro m live
      rw [Option.mem_def, node?_eq_some_iff, ← index, slot] at live
      simp only [Option.some.injEq, Slot.mk.injEq] at live
      exact NodeId.generation_ne other index live.1
  · -- Another slot is as it was.
    have other : j ≠ id := fun equal => index (by rw [equal])
    rw [if_neg other]
    apply Option.ext
    intro m
    rw [node?_eq_some_iff, node?_eq_some_iff]
    simp [remove, index]

/-- Removing a live node leaves one node less. -/
theorem liveCount_remove (found : g.node? id = some n) : (g.remove id n).liveCount + 1 = g.liveCount := by
  have slot := node?_eq_some_iff.mp found
  obtain ⟨inside, here⟩ := List.getElem?_eq_some_iff.mp slot
  have positive : 0 < g.slots.countP fun s => s.node.isSome :=
    countP_pos_iff.mpr ⟨_, mem_of_getElem? slot, rfl⟩
  -- One occupied slot is emptied.
  simp only [liveCount, remove, countP_set inside, here, Option.isSome_some, Option.isSome_none, if_true]
  simp only [Bool.false_eq_true, if_false]
  omega

theorem node?_eq_none_of_liveCount (empty : g.liveCount = 0) (id : NodeId) : g.node? id = none := by
  cases found : g.node? id with
  | none => rfl
  | some n =>
    have slot := mem_of_getElem? (node?_eq_some_iff.mp found)
    have := countP_eq_zero.mp empty _ slot
    simp at this

/-- Removing a live node keeps the tables right. -/
theorem Arena.remove (arena : Arena g) (found : g.node? id = some n) : Arena (g.remove id n) := by
  have slot := node?_eq_some_iff.mp found
  have inside : id.index < g.slots.length := (List.getElem?_eq_some_iff.mp slot).1
  have nodes := node?_remove found
  -- What holds of some live node now held of one that was there and was not the removed one.
  have remaining : ∀ (j : NodeId) (p : Node → Prop), (∃ m, (g.remove id n).node? j = some m ∧ p m) ↔
      j ≠ id ∧ ∃ m, g.node? j = some m ∧ p m := by
    intro j p
    rw [nodes]
    by_cases same : j = id
    · simp [same]
    · simp [same]
  constructor
  · intro i
    simp only [Graph.remove, mem_cons, arena.free]
    by_cases here : id.index = i
    · subst here
      simp [inside]
    · simp [here, Ne.symm here]
  · -- The slot was not empty before.
    simp only [Graph.remove, nodup_cons]
    refine ⟨?_, arena.freeOnce⟩
    intro member
    obtain ⟨u, empty⟩ := (arena.free _).mp member
    rw [slot] at empty
    cases empty
  · intro key j
    rw [remaining j (fun m => m.key = key), ← arena.index]
    simp only [Graph.remove, mem_filter, bne_iff_ne, ne_eq]
    constructor
    · rintro ⟨bound, other⟩
      refine ⟨?_, bound⟩
      rintro rfl
      -- The removed handle was bound to its own key only.
      obtain ⟨m, live, rfl⟩ := (arena.index key j).mp bound
      rw [found] at live
      cases live
      exact other rfl
    · rintro ⟨other, bound⟩
      refine ⟨bound, ?_⟩
      rintro rfl
      -- The key of the removed node was bound to its handle only.
      have own := arena.find? found
      rw [Graph.find?, lookup_of_mem arena.indexOnce bound] at own
      exact other (by simpa using own)
  · exact arena.indexOnce.sublist (List.Sublist.map _ filter_sublist)
  · intro type j
    rw [remaining j (fun m => m.layout.name = type), ← arena.typed]
    by_cases named : type = n.layout.name
    · subst named
      simp only [Graph.remove, live, Entries.find?_insert_self, Option.getD_some]
      simp [and_comm]
    · simp only [Graph.remove, live, Entries.find?_insert_of_ne named]
      -- A node of another type is not the removed one.
      refine ⟨fun member => ⟨?_, member⟩, And.right⟩
      rintro rfl
      obtain ⟨m, live, rfl⟩ := (arena.typed type j).mp member
      rw [found] at live
      cases live
      exact named rfl

end Graph

end EntityGraph
