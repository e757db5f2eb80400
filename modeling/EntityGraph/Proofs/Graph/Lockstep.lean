import EntityGraph.Proofs.Graph.Settle
import EntityGraph.Proofs.Graph.Twins

/-! Two graphs in lockstep: one is the other with more snapshots. Absorbing, holding and letting go do not look at
snapshots, so they do the same to both. -/

namespace EntityGraph

open List

/-- The second node is the first one with snapshots that nobody else asked for: what the first has cached or evicted the
second has too, and what the first has cached was not evicted from the second. -/
structure Node.Ahead (n m : Node) : Prop where
  core : m = { n with cached := m.cached, previous := m.previous }
  cached : ∀ r, n.cached = some r → m.cached = some r ∧ m.previous = none
  previous : ∀ r, n.previous = some r → m.previous = some r

namespace Node.Ahead

variable {n m : Node}

/-- Evicting keeps the second node ahead. -/
theorem evict (ahead : n.Ahead m) : n.evict.Ahead m.evict where
  core := by
    rw [ahead.core]
    rfl
  cached r found := by simp [Node.evict] at found
  previous r found := by
    -- The oldest snapshot is one that was evicted before, or the cached one.
    simp only [Node.evict] at found ⊢
    cases before : n.previous with
    | some p =>
      rw [before] at found
      rw [ahead.previous p before]
      exact found
    | none =>
      rw [before] at found
      obtain ⟨cached, none⟩ := ahead.cached r found
      rw [none, cached]
      rfl

/-- A change that is the same for both and has nothing to do with snapshots. -/
theorem change (ahead : n.Ahead m) (f : Node → Node) (cached : ∀ n, (f n).cached = n.cached)
    (previous : ∀ n, (f n).previous = n.previous)
    (blind : ∀ n c p, f { n with cached := c, previous := p } = { f n with cached := c, previous := p }) :
    (f n).Ahead (f m) where
  core := by
    rw [cached, previous]
    exact (congrArg f ahead.core).trans (blind n _ _)
  cached r found := by
    rw [cached] at found
    rw [cached, previous]
    exact ahead.cached r found
  previous r found := by
    rw [previous] at found
    rw [previous]
    exact ahead.previous r found

/-- Both have the same links. -/
theorem links (ahead : n.Ahead m) : m.links = n.links := by rw [ahead.core]; rfl

end Node.Ahead

namespace Graph

/-- The second graph is the first one with more snapshots. -/
abbrev Ahead : Graph → Graph → Prop :=
  Paired Node.Ahead

namespace Ahead

variable {g h : Graph}

/-- Nothing but snapshots differs. -/
theorem twins (ahead : Ahead g h) : Twins g h :=
  ahead.mono fun _ _ same => same.core

/-- What does the same to both does so any number of times. -/
theorem foldl {α : Type} {f : Graph → α → Graph} (step : ∀ {g h : Graph} (a : α), Ahead g h → Ahead (f g a) (f h a))
    (ahead : Ahead g h) (items : List α) : Ahead (items.foldl f g) (items.foldl f h) := by
  induction items generalizing g h with
  | nil => exact ahead
  | cons a rest ih => exact ih (step a ahead)

/-- Counting a link looks at no snapshot. -/
theorem link (parent child : NodeId) (ahead : Ahead g h) :
    Ahead (Graph.link parent g child) (Graph.link parent h child) :=
  ahead.update child fun _ _ same =>
    same.change (·.addParent parent) (fun _ => rfl) (fun _ => rfl) fun _ _ _ => rfl

/-- Neither does taking one back, nor the orphan that it may make. -/
theorem unlink (parent child : NodeId) (ahead : Ahead g h) :
    Ahead (Graph.unlink parent g child) (Graph.unlink parent h child) := by
  unfold Graph.unlink
  cases live : g.node? child with
  | none =>
    rw [ahead.of_dead live]
    exact ahead
  | some n =>
    obtain ⟨m, live', same⟩ := ahead.of_live live
    rw [live']
    have dropped : (n.dropParent parent).Ahead (m.dropParent parent) :=
      same.change (·.dropParent parent) (fun _ => rfl) (fun _ => rfl) fun _ _ _ => rfl
    have unreferenced : (m.dropParent parent).isUnreferenced child = (n.dropParent parent).isUnreferenced child := by
      rw [dropped.core]
      rfl
    have updated : Ahead (g.update child fun _ => n.dropParent parent) (h.update child fun _ => m.dropParent parent) :=
      ahead.update child fun _ _ _ => dropped
    simp only [unreferenced]
    split
    · exact updated.pending rfl rfl (by rw [updated.rest])
    · exact updated

/-- The same nodes are garbage. -/
theorem isGarbage (ahead : Ahead g h) (id : NodeId) : h.isGarbage id = g.isGarbage id := by
  unfold Graph.isGarbage
  cases live : g.node? id with
  | none => rw [ahead.of_dead live]
  | some n =>
    obtain ⟨m, live', same⟩ := ahead.of_live live
    rw [live', same.core]
    rfl

/-- Collecting a node does the same to both. -/
theorem collect (id : NodeId) (ahead : Ahead g h) : Ahead (Graph.collect g id) (Graph.collect h id) := by
  unfold Graph.collect
  cases live : g.node? id with
  | none =>
    rw [ahead.of_dead live]
    exact ahead
  | some n =>
    obtain ⟨m, live', same⟩ := ahead.of_live live
    rw [live']
    dsimp only
    rw [same.links]
    have emptied := ahead.set id.index (s := ⟨id.generation + 1, none⟩) (t := ⟨id.generation + 1, none⟩) ⟨rfl, .none⟩
    have removed : Ahead (g.remove id n) (h.remove id m) := by
      refine emptied.pending rfl rfl ?_
      rw [same.core, ahead.rest]
      rfl
    exact foldl (fun c => unlink id c) removed _

/-- So does a sweep, orphan by orphan. -/
theorem sweepUpTo (fuel : Nat) (ahead : Ahead g h) : Ahead (Graph.sweepUpTo fuel g) (Graph.sweepUpTo fuel h) := by
  have emptied : ∀ {g h : Graph} (orphans : List NodeId), Ahead g h →
      Ahead { g with orphans := orphans } { h with orphans := orphans } :=
    fun orphans ahead => ahead.pending rfl rfl (by rw [ahead.rest])
  induction fuel generalizing g h with
  | zero => exact emptied [] ahead
  | succ fuel ih =>
    unfold Graph.sweepUpTo
    have orphans : h.orphans = g.orphans := by rw [ahead.rest]
    simp only [orphans, ahead.isGarbage]
    split
    · exact emptied [] ahead
    · exact ih (collect _ (emptied _ ahead))

variable (ahead : Ahead g h)
include ahead

/-- As many nodes are live. -/
theorem liveCount : h.liveCount = g.liveCount := by
  have same : h.slots.map (fun s => s.node.isSome) = g.slots.map fun s => s.node.isSome := by
    refine ext_getElem? fun i => ?_
    rw [getElem?_map, getElem?_map]
    cases slot : g.slots[i]? with
    | none => rw [ahead.slot_of_none slot]
    | some s =>
      obtain ⟨t, there, same⟩ := ahead.slots i s slot
      have both := same.node
      rw [there, Option.map_some, Option.map_some]
      generalize s.node = a at both
      generalize t.node = b at both
      cases both <;> rfl
  have counts : ∀ slots : List Slot, slots.countP (fun s => s.node.isSome) =
      (slots.map fun s => s.node.isSome).countP id := fun slots => by rw [countP_map]; rfl
  rw [Graph.liveCount, Graph.liveCount, counts, counts, same]

/-- A whole sweep does the same to both. -/
theorem sweep : Ahead g.sweep h.sweep := by
  unfold Graph.sweep
  rw [ahead.liveCount]
  exact ahead.sweepUpTo _

/-- The same nodes lead to a node. -/
theorem ancestors (id : NodeId) : h.ancestors id = g.ancestors id := by
  have parents : h.parents = g.parents := by
    funext j
    rw [Graph.parents, Graph.parents, ahead.twins.map_node? _ fun _ _ _ => rfl]
  have live : h.contains = g.contains := funext ahead.contains
  rw [Graph.ancestors, Graph.ancestors, parents, live, ahead.length]

/-- A change evicts in both, and queues the same nodes. -/
theorem touch (id : NodeId) : Ahead (g.touch id) (h.touch id) := by
  unfold Graph.touch
  rw [ahead.ancestors]
  refine foldl (fun j ahead => ?_) ahead _
  have evicted := ahead.update j fun _ _ same => same.evict
  exact evicted.pending rfl rfl (by rw [noteChange, evicted.rest]; rfl)

/-- The next slot is the same in both graphs. -/
theorem allocate : h.allocate.1 = g.allocate.1 ∧ Ahead g.allocate.2 h.allocate.2 := by
  have free : h.free = g.free := by rw [ahead.rest]
  unfold Graph.allocate
  rw [free]
  cases g.free with
  | cons i rest =>
    have generation : h.slots[i]?.map Slot.generation = g.slots[i]?.map Slot.generation := by
      cases there : g.slots[i]? with
      | none => rw [ahead.slot_of_none there]
      | some s =>
        obtain ⟨t, there', same⟩ := ahead.slots i s there
        rw [there', Option.map_some, Option.map_some, same.generation]
    dsimp only
    exact ⟨by rw [generation], ahead.pending rfl rfl (by rw [ahead.rest])⟩
  | nil =>
    refine ⟨by dsimp only; rw [ahead.length], ⟨by rw [ahead.rest], by simp [ahead.length], fun i s there => ?_⟩⟩
    simp only [getElem?_append, ahead.length] at there ⊢
    split at there
    · rename_i inside
      rw [if_pos inside]
      exact ahead.slots i s there
    · rename_i outside
      rw [if_neg outside]
      have empty : s = ⟨0, none⟩ := by simpa using mem_of_getElem? there
      exact ⟨s, there, rfl, by rw [empty]; exact .none⟩

/-- A new node has the same handle in both graphs. -/
theorem create (layout : Layout) (key : Key) (parentRoot : Option NodeId) :
    (h.create layout key parentRoot).1 = (g.create layout key parentRoot).1 ∧
      Ahead (g.create layout key parentRoot).2 (h.create layout key parentRoot).2 := by
  obtain ⟨same, ahead₁⟩ := ahead.allocate
  unfold Graph.create
  cases first : g.allocate with
  | mk id g₁ =>
    cases second : h.allocate with
    | mk id' h₁ =>
      rw [first, second] at same ahead₁
      simp only at same ahead₁
      subst same
      refine ⟨rfl, ?_⟩
      have made : ∀ n : Node, n.cached = none → n.previous = none → n.Ahead n := fun n cached previous =>
        ⟨rfl, by simp [cached], by simp [previous]⟩
      have placed := ahead₁.set id'.index (s := ⟨id'.generation, _⟩) (t := ⟨id'.generation, _⟩) ⟨rfl,
        .some (made (Node.new layout key (if layout.identifiable then id' else parentRoot.getD id')) rfl rfl)⟩
      exact placed.pending rfl rfl (by rw [ahead₁.rest]; rfl)

/-- A node that has to be there is missing in both graphs or in none. -/
theorem node (id : NodeId) :
    (g.node id = .error (.unknownNode id) ∧ h.node id = .error (.unknownNode id)) ∨
      ∃ n m, g.node? id = some n ∧ h.node? id = some m ∧ g.node id = .ok n ∧ h.node id = .ok m ∧ n.Ahead m := by
  unfold Graph.node
  cases live : g.node? id with
  | none => exact Or.inl ⟨rfl, by rw [ahead.of_dead live]⟩
  | some n =>
    obtain ⟨m, live', same⟩ := ahead.of_live live
    exact Or.inr ⟨n, m, rfl, live', rfl, by rw [live'], same⟩

/-- A node has the same root in both. -/
theorem root (id : NodeId) : h.root id = g.root id := by
  unfold Graph.root
  rcases ahead.node id with ⟨missing, missing'⟩ | ⟨n, m, -, -, here, here', same⟩
  · rw [missing, missing']
  · rw [here, here', same.core]
    rfl

end Ahead

/-- A change that may fail does the same to two graphs. -/
def Alike (first second : Except GraphError Graph) : Prop :=
  (∃ e, first = .error e ∧ second = .error e) ∨ ∃ g h, first = .ok g ∧ second = .ok h ∧ Ahead g h

namespace Ahead

variable {g h : Graph}

/-- A field is replaced in both, or in neither. -/
theorem setField (ahead : Ahead g h) (id : NodeId) (i : Nat) (incoming : Field Stored) :
    Alike (g.setField id i incoming) (h.setField id i incoming) := by
  cases live : g.node? id with
  | none =>
    refine Or.inl ⟨.unknownNode id, ?_, ?_⟩
    · simp [Graph.setField, Graph.node, live, bind, Except.bind]
    · simp [Graph.setField, Graph.node, ahead.of_dead live, bind, Except.bind]
  | some n =>
    obtain ⟨m, live', same⟩ := ahead.of_live live
    have fields : m.fields = n.fields := by rw [same.core]
    rw [setField_eq live, setField_eq live', fields]
    refine Or.inr ⟨_, _, rfl, rfl, ?_⟩
    cases n.fields[i]? with
    | none => exact ahead
    | some current =>
      dsimp only
      split
      · exact ahead
      · -- The old links go, the new field comes, its links come, and the node is marked.
        have dropped := foldl (fun c => unlink id c) ahead (Stored.fieldLinks [current])
        have replaced := dropped.update id fun _ _ same =>
          same.change (fun n => { n with fields := n.fields.set i incoming }) (fun _ => rfl) (fun _ => rfl)
            fun _ _ _ => rfl
        exact (foldl (fun c => link id c) replaced (Stored.fieldLinks [incoming])).touch id

/-- Holds are counted alike. -/
theorem holds (ahead : Ahead g h) (id : NodeId) (f : Nat → Nat) :
    Ahead (g.update id fun n => { n with holds := f n.holds }) (h.update id fun n => { n with holds := f n.holds }) :=
  ahead.update id fun _ _ same =>
    same.change (fun n => { n with holds := f n.holds }) (fun _ => rfl) (fun _ => rfl) fun _ _ _ => rfl

/-- A node is held in both, or in neither. -/
theorem retain (ahead : Ahead g h) (id : NodeId) : Alike (g.retain id) (h.retain id) := by
  unfold Graph.retain
  rcases ahead.node id with ⟨missing, missing'⟩ | ⟨n, m, -, -, here, here', -⟩
  · exact Or.inl ⟨_, by rw [missing]; rfl, by rw [missing']; rfl⟩
  · exact Or.inr ⟨_, _, by rw [here]; rfl, by rw [here']; rfl, ahead.holds id (· + 1)⟩

/-- Letting a node go does the same to both. -/
theorem release (ahead : Ahead g h) (id : NodeId) : Alike (g.release id) (h.release id) := by
  unfold Graph.release
  rcases ahead.node id with ⟨missing, missing'⟩ | ⟨n, m, -, -, here, here', -⟩
  · exact Or.inl ⟨_, by rw [missing]; rfl, by rw [missing']; rfl⟩
  · have dropped := ahead.holds id (· - 1)
    refine Or.inr ⟨_, _, by rw [here]; rfl, by rw [here']; rfl, ?_⟩
    exact sweep (dropped.pending rfl rfl (by rw [dropped.rest]))

end Ahead

namespace Step

/-- A step does the same to two graphs in lockstep: it gives the same result or the same error, and leaves them in
lockstep. -/
def Locked {α : Type} (m : Step α) : Prop :=
  ∀ g h, Ahead g h → Ends m g (fun a g' => ∃ h', m h = .ok a h' ∧ Ahead g' h')
    fun e g' => ∃ h', m h = .error e h' ∧ Ahead g' h'

namespace Locked

variable {α β : Type}

/-- What a step gives without looking is the same. -/
theorem pure (a : α) : Locked (pure a) :=
  fun _ h ahead => ⟨h, rfl, ahead⟩

/-- Steps one after the other are locked if each is. -/
theorem bind {m : Step α} {f : α → Step β} (first : Locked m) (next : ∀ a, Locked (f a)) : Locked (m >>= f) := by
  intro g h ahead
  refine Ends.bind ((first g h ahead).mono ?_ ?_)
  · rintro a g₁ ⟨h₁, done, ahead₁⟩
    refine (next a g₁ h₁ ahead₁).mono ?_ ?_
    · rintro b g₂ ⟨h₂, done₂, ahead₂⟩
      exact ⟨h₂, by simp only [Bind.bind, EStateM.bind, done, done₂], ahead₂⟩
    · rintro e g₂ ⟨h₂, failed, ahead₂⟩
      exact ⟨h₂, by simp only [Bind.bind, EStateM.bind, done, failed], ahead₂⟩
  · rintro e g₁ ⟨h₁, failed, ahead₁⟩
    exact ⟨h₁, by simp only [Bind.bind, EStateM.bind, failed], ahead₁⟩

/-- What becomes of the result changes nothing. -/
theorem map {m : Step α} (first : Locked m) (f : α → β) : Locked (f <$> m) := by
  intro g h ahead
  refine Ends.map ((first g h ahead).mono ?_ ?_)
  · rintro a g₁ ⟨h₁, done, ahead₁⟩
    exact ⟨h₁, by simp only [Functor.map, EStateM.map, done], ahead₁⟩
  · rintro e g₁ ⟨h₁, failed, ahead₁⟩
    exact ⟨h₁, by simp only [Functor.map, EStateM.map, failed], ahead₁⟩

/-- A question is locked if the answer is the same. -/
theorem ask {f : Graph → Except GraphError α} (same : ∀ g h, Ahead g h → f h = f g) : Locked (Step.ask f) := by
  intro g h ahead
  unfold Ends Step.ask
  rw [same g h ahead]
  cases f g with
  | ok a => exact ⟨h, rfl, ahead⟩
  | error e => exact ⟨h, rfl, ahead⟩

/-- A change is locked if it does the same to both. -/
theorem change {f : Graph → Except GraphError Graph} (alike : ∀ g h, Ahead g h → Alike (f g) (f h)) :
    Locked (Step.change f) := by
  intro g h ahead
  unfold Ends Step.change
  rcases alike g h ahead with ⟨e, failed, failed'⟩ | ⟨g', h', done, done', ahead'⟩
  · rw [failed, failed']
    exact ⟨h, rfl, ahead⟩
  · rw [done, done']
    exact ⟨h', rfl, ahead'⟩

/-- A choice that the graph does not make changes nothing. -/
theorem ite {c : Prop} [Decidable c] {m m' : Step α} (first : Locked m) (second : Locked m') :
    Locked (if c then m else m') := by
  split
  · exact first
  · exact second

/-- A step for each of a list is locked if all of them are. -/
theorem mapM {f : α → Step β} {as : List α} (each : ∀ a ∈ as, Locked (f a)) : Locked (as.mapM f) := by
  induction as with
  | nil => exact pure []
  | cons a rest ih =>
    rw [mapM_cons]
    have later := ih fun a there => each a (.tail _ there)
    exact (each a mem_cons_self).bind fun _ => later.bind fun _ => pure _

/-- The depth has nothing to do with the graph. -/
theorem checkDepth (depth : Nat) : Locked (Graph.checkDepth depth) :=
  ite (fun _ h ahead => ⟨h, rfl, ahead⟩) (pure ())

/-- The node of a key is found in both, or made in both. -/
theorem ensure (layout : Layout) (key : Key) (parentRoot : Option NodeId) :
    Locked (Graph.ensure layout key parentRoot) := by
  intro g h ahead
  have find : h.find? key = g.find? key := by
    rw [ahead.rest]
    rfl
  unfold Ends Graph.ensure
  rw [find]
  cases g.find? key with
  | some id => exact ⟨h, rfl, ahead⟩
  | none =>
    obtain ⟨same, made⟩ := ahead.create layout key parentRoot
    cases first : g.create layout key parentRoot with
    | mk id g₁ =>
      cases second : h.create layout key parentRoot with
      | mk id' h₁ =>
        rw [first, second] at same made
        simp only at same made
        subst same
        have noted : Ahead { g₁ with created := id' :: g₁.created } { h₁ with created := id' :: h₁.created } :=
          made.pending rfl rfl (by rw [made.rest])
        exact ⟨_, rfl, noted.touch id'⟩

end Locked

end Step

open Step

/-- An element is stored as its value is. -/
theorem storeItem_locked {root : NodeId} {depth : Nat} (item : Option Value)
    (each : ∀ v, item = some v → Locked (store v root depth)) : Locked (storeItem root depth item) := by
  cases item with
  | none => exact .pure _
  | some v => exact (each v rfl).map _

/-- So is a field. -/
theorem storeField_locked {root : NodeId} {depth : Nat} (f : Field Value)
    (each : ∀ v, f = .value v → Locked (store v root depth)) : Locked (storeField f root depth) := by
  cases f with
  | value v => exact (each v rfl).map _
  | _ => exact .pure _

/-- Merging fields does not look at snapshots if storing their values does not. -/
theorem absorbFields_locked {fields : List (Field Value)} (infos : List FieldInfo) {id root : NodeId} {depth : Nat}
    (i : Nat) (each : ∀ v, .value v ∈ fields → Locked (store v root depth)) :
    Locked (absorbFields fields infos id root depth i) := by
  induction fields generalizing infos i with
  | nil =>
    rw [absorbFields_nil id root depth i (Or.inl rfl)]
    exact .pure _
  | cons f fields ih =>
    cases infos with
    | nil =>
      rw [absorbFields_nil id root depth i (Or.inr rfl)]
      exact .pure _
    | cons info infos =>
      rw [absorbFields_cons]
      have stored := storeField_locked f fun v same => each v (same ▸ mem_cons_self)
      have later := ih infos (i + 1) fun v there => each v (.tail _ there)
      exact (Locked.ite (.pure _) ((Locked.ite stored (.pure _)).bind fun s =>
        .change fun _ _ ahead => ahead.setField id i s)).bind fun _ => later

/-- Nor does merging a record. -/
theorem absorbAt_locked_of {r : Record} (parentRoot : Option NodeId) {depth : Nat}
    (each : ∀ v, .value v ∈ r.fields → ∀ root, Locked (store v root depth)) : Locked (absorbAt r parentRoot depth) := by
  rcases r with ⟨own, fields⟩
  rw [absorbAt]
  refine (Locked.checkDepth depth).bind fun _ => ?_
  refine (Locked.ask fun _ _ ahead => by rw [ahead.rest]; rfl).bind fun layout => ?_
  refine (Locked.ensure layout _ parentRoot).bind fun id => ?_
  refine (Locked.ask fun _ _ ahead => ahead.root id).bind fun root => ?_
  exact (absorbFields_locked layout.fields 0 fun v there => each v there root).bind fun _ => .pure _

/-- Storing a value does not look at snapshots. -/
theorem store_locked (v : Value) (root : NodeId) (depth : Nat) : Locked (store v root depth) := by
  induction v using Value.induct generalizing root depth with
  | scalar v plain =>
    cases v <;> first | (cases plain; done) | (simp only [store]; exact (Locked.checkDepth depth).bind fun _ => .pure _)
  | record r ih =>
    rcases r with ⟨layout, fields⟩
    rw [store, storeInline, storeFields_eq]
    refine (Locked.checkDepth depth).bind fun _ => .ite ((absorbAt_locked_of (some root) fun v there root => ?_).map _)
      (.ite (((Locked.mapM fun e there => ?_).bind fun _ => .pure _).map _) (.pure _))
    · exact ih v there root (depth + 1)
    · exact .ite (.pure _)
        (storeField_locked e.1 fun v same => ih v (same ▸ (of_mem_zip there).1) root (depth + 1))
  | list items ih =>
    rw [store, storeItems_eq]
    refine (Locked.checkDepth depth).bind fun _ => (Locked.mapM fun item there => ?_).bind fun _ => .pure _
    exact storeItem_locked item fun v same => ih v (same ▸ there) root (depth + 1)
  | map entries ih =>
    rw [store, storeEntries_eq]
    refine (Locked.checkDepth depth).bind fun _ => (Locked.mapM fun e there => ?_).bind fun _ => .pure _
    exact (storeItem_locked e.2 fun v same => ih e.1 v (same ▸ there) root (depth + 1)).map _

/-- Absorbing a record does not look at snapshots. -/
theorem absorb_locked (r : Record) (parentRoot : Option NodeId) : Locked (absorb r parentRoot) := by
  intro g h ahead
  have ends := absorbAt_locked_of (r := r) parentRoot (fun v _ root => store_locked v root 0) g h ahead
  unfold Ends at ends ⊢
  unfold absorb
  cases result : absorbAt r parentRoot 0 g with
  | ok id g₁ =>
    rw [result] at ends
    obtain ⟨h₁, done, ahead₁⟩ := ends
    simp only [done]
    exact ⟨_, rfl, Ahead.sweep (ahead₁.pending rfl rfl (by rw [ahead₁.rest]))⟩
  | error e g₁ =>
    rw [result] at ends
    obtain ⟨h₁, failed, ahead₁⟩ := ends
    simp only [failed]
    exact ⟨_, rfl, Ahead.sweep (ahead₁.pending rfl rfl (by rw [ahead₁.rest]))⟩

end Graph

end EntityGraph
