import EntityGraph.Proofs.Graph.Arena

/-! Pairs of graphs whose nodes are related one by one, and which agree in everything else. -/

namespace EntityGraph

/-- The nodes differ in their snapshots only. -/
def Node.Twin (n m : Node) : Prop :=
  m = { n with cached := m.cached, previous := m.previous }

/-- Slots that are both empty, or whose nodes are related. -/
structure Slot.Paired (related : Node → Node → Prop) (s t : Slot) : Prop where
  generation : t.generation = s.generation
  node : Option.Rel related s.node t.node

namespace Graph

variable {f : Node → Node}

/-- Graphs whose nodes are related, and which agree in everything else. -/
structure Paired (related : Node → Node → Prop) (g h : Graph) : Prop where
  rest : h = { g with slots := h.slots }
  length : h.slots.length = g.slots.length
  slots : ∀ (i : Nat) (s : Slot), g.slots[i]? = some s → ∃ t, h.slots[i]? = some t ∧ s.Paired related t

/-- Graphs that differ in snapshots only. -/
abbrev Twins : Graph → Graph → Prop :=
  Paired Node.Twin

namespace Paired

variable {related : Node → Node → Prop} {g h : Graph}

variable (paired : Paired related g h) {i : Nat} {t : Slot} {id : NodeId}
include paired

/-- A slot of the second graph stands for one of the first. -/
theorem slot_of (there : h.slots[i]? = some t) : ∃ s, g.slots[i]? = some s ∧ s.Paired related t := by
  have inside : i < g.slots.length := by
    rw [← paired.length]
    exact (List.getElem?_eq_some_iff.mp there).1
  obtain ⟨t', there', same⟩ := paired.slots i _ (List.getElem?_eq_getElem inside)
  rw [there] at there'
  cases there'
  exact ⟨_, List.getElem?_eq_getElem inside, same⟩

theorem slot_of_none (outside : g.slots[i]? = none) : h.slots[i]? = none := by
  rw [List.getElem?_eq_none_iff, paired.length]
  exact List.getElem?_eq_none_iff.mp outside

/-- A live node of the first graph has its partner in the second. -/
theorem of_live {n : Node} (live : g.node? id = some n) : ∃ m, h.node? id = some m ∧ related n m := by
  obtain ⟨⟨generation, node⟩, there, valid, both⟩ := paired.slots _ _ (node?_eq_some_iff.mp live)
  simp only at valid both
  subst valid
  cases both with
  | some same => exact ⟨_, node?_eq_some_iff.mpr there, same⟩

/-- A live node of the second graph has its partner in the first. -/
theorem of_live' {m : Node} (live : h.node? id = some m) : ∃ n, g.node? id = some n ∧ related n m := by
  obtain ⟨⟨generation, node⟩, there, valid, both⟩ := paired.slot_of (node?_eq_some_iff.mp live)
  simp only at valid both
  subst valid
  cases both with
  | some same => exact ⟨_, node?_eq_some_iff.mpr there, same⟩

/-- The same handles are dead. -/
theorem of_dead (dead : g.node? id = none) : h.node? id = none := by
  cases live : h.node? id with
  | none => rfl
  | some m =>
    obtain ⟨n, there, -⟩ := paired.of_live' live
    rw [dead] at there
    cases there

/-- The same handles are live. -/
theorem contains (id : NodeId) : h.contains id = g.contains id := by
  unfold Graph.contains
  cases live : g.node? id with
  | none => rw [paired.of_dead live]
  | some n =>
    obtain ⟨m, live', -⟩ := paired.of_live live
    rw [live']
    rfl

/-- What is pending does not matter, if it is the same. -/
theorem pending {g' h' : Graph} (slots : g'.slots = g.slots) (slots' : h'.slots = h.slots)
    (rest : h' = { g' with slots := h'.slots }) : Paired related g' h' where
  rest := rest
  length := by rw [slots, slots', paired.length]
  slots := by rw [slots, slots']; exact paired.slots

/-- Slots may be replaced by partners. -/
theorem set (i : Nat) {s : Slot} (same : s.Paired related t) :
    Paired related { g with slots := g.slots.set i s } { h with slots := h.slots.set i t } where
  rest := by rw [paired.rest]
  length := by simp [paired.length]
  slots j s' there := by
    rw [List.getElem?_set] at there ⊢
    simp only [paired.length]
    split at there
    · rename_i here
      split at there
      · rename_i inside
        cases there
        exact ⟨t, by rw [if_pos here, if_pos inside], same⟩
      · cases there
    · rename_i other
      obtain ⟨t', found, same'⟩ := paired.slots j s' there
      exact ⟨t', by simpa [other] using found, same'⟩

/-- Partners that are changed alike stay partners. -/
theorem update (id : NodeId) {f' : Node → Node} (keeps : ∀ n m, related n m → related (f n) (f' m)) :
    Paired related (g.update id f) (h.update id f') := by
  unfold Graph.update
  cases live : g.node? id with
  | none =>
    rw [paired.of_dead live]
    exact paired
  | some n =>
    obtain ⟨m, live', same⟩ := paired.of_live live
    rw [live']
    exact paired.set id.index ⟨rfl, .some (keeps n m same)⟩

theorem mono {related' : Node → Node → Prop} (weaker : ∀ n m, related n m → related' n m) : Paired related' g h where
  rest := paired.rest
  length := paired.length
  slots i s there := by
    obtain ⟨t, there', same⟩ := paired.slots i s there
    refine ⟨t, there', same.generation, ?_⟩
    have both := same.node
    generalize s.node = a at both ⊢
    generalize t.node = b at both ⊢
    cases both with
    | none => exact .none
    | some pair => exact .some (weaker _ _ pair)

end Paired

namespace Twins

variable {g h k : Graph}

theorem refl (g : Graph) : Twins g g where
  rest := rfl
  length := rfl
  slots i s there := by
    refine ⟨s, there, rfl, ?_⟩
    cases s.node with
    | none => exact .none
    | some n => exact .some rfl

theorem trans (first : Twins g h) (second : Twins h k) : Twins g k where
  rest := by
    rw [second.rest, first.rest]
  length := second.length.trans first.length
  slots i s there := by
    obtain ⟨t, there₁, same₁⟩ := first.slots i s there
    obtain ⟨u, there₂, same₂⟩ := second.slots i t there₁
    refine ⟨u, there₂, same₂.generation.trans same₁.generation, ?_⟩
    have both₁ := same₁.node
    have both₂ := same₂.node
    generalize s.node = a at both₁ ⊢
    generalize t.node = b at both₁ both₂
    generalize u.node = c at both₂ ⊢
    cases both₁ with
    | none => cases both₂; exact .none
    | some twin₁ =>
      cases both₂ with
      | some twin₂ =>
        refine .some ?_
        rw [Node.Twin] at twin₁ twin₂ ⊢
        rw [twin₂, twin₁]

theorem symm (twins : Twins g h) : Twins h g where
  rest := by
    rw [twins.rest]
  length := twins.length.symm
  slots i t there := by
    obtain ⟨s, there', same⟩ := twins.slot_of there
    refine ⟨s, there', same.generation.symm, ?_⟩
    have both := same.node
    generalize s.node = a at both ⊢
    generalize t.node = b at both ⊢
    cases both with
    | none => exact .none
    | some twin =>
      refine .some ?_
      rw [Node.Twin] at twin ⊢
      rw [twin]

/-- A change of the snapshots of one node. -/
theorem update (g : Graph) (id : NodeId) (twin : ∀ n : Node, n.Twin (f n)) : Twins g (g.update id f) := by
  unfold Graph.update
  cases live : g.node? id with
  | none => exact refl g
  | some n =>
    refine ⟨rfl, by simp, fun i s there => ?_⟩
    rw [List.getElem?_set]
    split
    · rename_i here
      subst here
      rw [node?_eq_some_iff.mp live] at there
      cases there
      have inside := (List.getElem?_eq_some_iff.mp (node?_eq_some_iff.mp live)).1
      exact ⟨⟨id.generation, some (f n)⟩, by rw [if_pos inside], rfl, .some (twin n)⟩
    · obtain ⟨t, there', same⟩ := (refl g).slots i s there
      exact ⟨t, there', same⟩

/-- What does not look at snapshots is the same in both. -/
theorem map_node? {α : Type} (twins : Twins g h) (f : Node → α)
    (blind : ∀ n c p, f { n with cached := c, previous := p } = f n) (id : NodeId) :
    (h.node? id).map f = (g.node? id).map f := by
  cases live : g.node? id with
  | none => rw [twins.of_dead live]
  | some n =>
    obtain ⟨m, live', same⟩ := twins.of_live live
    rw [live', same]
    exact congrArg some (blind n _ _)

/-- Graphs that differ in snapshots only, and have the same, are one. -/
theorem eq_of_same (twins : Twins g h)
    (same : ∀ id n m, g.node? id = some n → h.node? id = some m → m.cached = n.cached ∧ m.previous = n.previous) :
    h = g := by
  have slots : h.slots = g.slots := by
    refine List.ext_getElem? fun i => ?_
    cases slot : g.slots[i]? with
    | none => exact twins.slot_of_none slot
    | some s =>
      obtain ⟨t, there, valid, both⟩ := twins.slots i s slot
      rw [there]
      rcases s with ⟨generation, node⟩
      rcases t with ⟨generation', node'⟩
      simp only at valid both
      subst valid
      cases both with
      | none => rfl
      | @some n m twin =>
        obtain ⟨cached, previous⟩ := same ⟨i, generation'⟩ n m (node?_eq_some_iff.mpr slot)
          (node?_eq_some_iff.mpr there)
        rw [twin, cached, previous]
  rw [twins.rest, slots]

end Twins

end Graph

end EntityGraph
