import EntityGraph.Graph.Links
import EntityGraph.Proofs.Graph.Arena

/-! Counts of incoming links, and what adding and dropping links do to them. -/

namespace EntityGraph

open List

/-- Changing the value of one key changes what the table answers for that key alone. -/
theorem lookup_map_at [DecidableEq κ] (key : κ) (f : α → α) (entries : List (κ × α)) (other : κ) :
    (entries.map fun e => if e.1 = key then (e.1, f e.2) else e).lookup other =
      if other = key then (entries.lookup key).map f else entries.lookup other := by
  induction entries with
  | nil => simp
  | cons entry rest ih =>
    rcases entry with ⟨k, v⟩
    -- The head may be the entry that changes, and it may be the one asked for.
    by_cases here : k = key
    · subst here
      by_cases asked : other = k
      · simp [asked]
      · have differs : (other == k) = false := by simpa using asked
        simpa [lookup_cons, differs, asked] using ih
    · by_cases asked : other = k
      · subst asked
        simp [here]
      · have differs : (other == k) = false := by simpa using asked
        have apart : (key == k) = false := by simpa using Ne.symm here
        simpa [lookup_cons, differs, apart, here] using ih

/-- Dropping bindings by value drops the answers with such values. -/
theorem lookup_filter_value [DecidableEq κ] (keep : α → Bool) {entries : List (κ × α)}
    (once : (entries.map Prod.fst).Nodup) (key : κ) :
    (entries.filter fun e => keep e.2).lookup key = (entries.lookup key).filter keep := by
  induction entries with
  | nil => simp
  | cons entry rest ih =>
    rcases entry with ⟨k, v⟩
    simp only [map_cons, nodup_cons] at once
    by_cases asked : key = k
    · subst asked
      by_cases kept : keep v
      · simp [kept, Option.filter]
      · -- The key has no second binding that could answer instead.
        have gone : rest.lookup key = none := by
          rw [lookup_eq_none_iff]
          intro e member
          simp only [bne_iff_ne, ne_eq]
          rintro rfl
          exact once.1 (mem_map_of_mem member)
        simp [kept, ih once.2, gone, Option.filter]
    · have differs : (key == k) = false := by simpa using asked
      by_cases kept : keep v
      · simpa [kept, lookup_cons, differs] using ih once.2
      · simpa [kept, lookup_cons, differs] using ih once.2

namespace Node

variable {n : Node} {count : NodeId → Nat}

/-- The table of parents holds the counts that are not zero, each once. -/
structure Counts (n : Node) (count : NodeId → Nat) : Prop where
  once : (n.parents.map Prod.fst).Nodup
  entry : ∀ p, n.parents.lookup p = if count p = 0 then none else some (count p)

theorem Counts.new (layout : Layout) (key : Key) (root : NodeId) :
    (Node.new layout key root).Counts fun _ => 0 where
  once := by simp [Node.new]
  entry := by simp [Node.new]

theorem Counts.congr {m : Node} {other : NodeId → Nat} (counts : n.Counts count) (parents : m.parents = n.parents)
    (same : ∀ p, other p = count p) : m.Counts other where
  once := by rw [parents]; exact counts.once
  entry p := by rw [parents, same, counts.entry]

/-- One more link from a node raises its count by one. -/
theorem Counts.addParent (counts : n.Counts count) (parent : NodeId) :
    (n.addParent parent).Counts fun p => count p + if p = parent then 1 else 0 := by
  have entry := counts.entry parent
  constructor
  · simp only [Node.addParent]
    split
    · -- Raising a count changes no key.
      have keys : ∀ e : NodeId × Nat, (if e.1 = parent then (e.1, e.2 + 1) else e).1 = e.1 := by
        intro e
        split <;> rfl
      simpa [Function.comp_def, keys] using counts.once
    · -- A parent without an entry is added at the end.
      rename_i missing
      rw [lookup_eq_none_iff] at missing
      simp only [map_append, map_cons, map_nil]
      refine nodup_append.mpr ⟨counts.once, by simp, ?_⟩
      intro p member q new
      obtain ⟨e, bound, rfl⟩ := mem_map.mp member
      rw [mem_singleton.mp new]
      exact fun same => by simpa [same] using missing e bound
  · intro p
    simp only [Node.addParent]
    split
    · -- A parent with an entry has a count that is not zero.
      rename_i k present
      rw [lookup_map_at parent (· + 1), present]
      rw [present] at entry
      by_cases same : p = parent
      · subst same
        by_cases zero : count p = 0
        · simp [zero] at entry
        · simp [zero] at entry
          simp [entry]
      · simp [same, counts.entry]
    · -- A parent without one had the count zero, and has one now.
      rename_i missing
      rw [lookup_append, lookup_cons, counts.entry]
      rw [missing] at entry
      by_cases same : p = parent
      · subst same
        have zero : count p = 0 := by
          by_contra positive
          simp [positive] at entry
        simp [zero]
      · have differs : (p == parent) = false := by simpa using same
        simp [same, differs]

/-- One link less from a node lowers its count by one. -/
theorem Counts.dropParent (counts : n.Counts count) (parent : NodeId) :
    (n.dropParent parent).Counts fun p => count p - if p = parent then 1 else 0 := by
  have keys : ((n.parents.map fun p => if p.1 = parent then (p.1, p.2 - 1) else p).map Prod.fst).Nodup := by
    have fst : ∀ e : NodeId × Nat, (if e.1 = parent then (e.1, e.2 - 1) else e).1 = e.1 := by
      intro e
      split <;> rfl
    simpa [Function.comp_def, fst] using counts.once
  constructor
  · exact keys.sublist (List.Sublist.map _ filter_sublist)
  · intro p
    simp only [Node.dropParent]
    rw [lookup_filter_value (fun k => k != 0) keys, lookup_map_at parent (· - 1)]
    by_cases same : p = parent
    · subst same
      rw [if_pos rfl, counts.entry]
      by_cases zero : count p = 0
      · simp [zero]
      · -- A count that reaches zero loses its entry.
        by_cases one : count p - 1 = 0
        · simp [zero, one]
        · simp [zero, one]
    · rw [if_neg same, counts.entry]
      by_cases zero : count p = 0
      · simp [zero, same]
      · simp [zero, same]

/-- A node is unreferenced exactly when no other node has a count. -/
theorem Counts.isUnreferenced (counts : n.Counts count) (own : NodeId) :
    n.isUnreferenced own = true ↔ ∀ p, p ≠ own → count p = 0 := by
  simp only [Node.isUnreferenced, all_eq_true, beq_iff_eq]
  constructor
  · intro all p other
    by_contra positive
    have found := counts.entry p
    rw [if_neg positive] at found
    exact other (all _ (mem_of_lookup found))
  · intro none e member
    by_contra other
    have found := lookup_of_mem counts.once member
    rw [counts.entry, if_pos (none e.1 other)] at found
    cases found

/-- What a node is apart from who links to it. -/
def lone (n : Node) : Node :=
  { n with parents := [] }

/-- What a node is apart from its snapshots and from who links to it. -/
def core (n : Node) : Node :=
  { n with parents := [], cached := none, previous := none }

end Node

namespace Stored

variable {c : NodeId} {fields : List (Field Stored)}

/-- Links stand in the order of the fields. -/
theorem fieldLinks_cons (f : Field Stored) (rest : List (Field Stored)) :
    fieldLinks (f :: rest) = fieldLinks [f] ++ fieldLinks rest := by
  cases f <;> simp [fieldLinks]

/-- What holds of a stored value as soon as it holds of those right inside it holds of every stored value. -/
@[elab_as_elim]
theorem induct {P : Stored → Prop} (plain : ∀ v, P (.plain v)) (link : ∀ id, P (.link id))
    (list : ∀ items, (∀ s, some s ∈ items → P s) → P (.list items))
    (map : ∀ entries, (∀ k s, (k, some s) ∈ entries → P s) → P (.map entries))
    (inline : ∀ r : RecordOf Stored, (∀ s, .value s ∈ r.fields → P s) → P (.inline r)) : (s : Stored) → P s
  | .plain v => plain v
  | .link id => link id
  | .list items => list items fun s _ => induct plain link list map inline s
  | .map entries => map entries fun _ s _ => induct plain link list map inline s
  | .inline ⟨layout, fields⟩ => inline ⟨layout, fields⟩ fun s _ => induct plain link list map inline s
termination_by s => sizeOf s
decreasing_by
  all_goals
    have smaller := sizeOf_lt_of_mem ‹_ ∈ _›
    simp at smaller ⊢
    omega

theorem mem_itemLinks {items : List (Option Stored)} : c ∈ itemLinks items ↔ ∃ s, some s ∈ items ∧ c ∈ s.links := by
  induction items with
  | nil => simp [itemLinks]
  | cons item rest ih => cases item <;> simp [itemLinks, ih, or_and_right, exists_or]

theorem mem_entryLinks {entries : List (String × Option Stored)} :
    c ∈ entryLinks entries ↔ ∃ s, (∃ k, (k, some s) ∈ entries) ∧ c ∈ s.links := by
  induction entries with
  | nil => simp [entryLinks]
  | cons e rest ih =>
    rcases e with ⟨k, item⟩
    cases item <;> simp [entryLinks, ih, or_and_right, exists_or]

/-- A link stands in one of the values. -/
theorem mem_fieldLinks : c ∈ fieldLinks fields ↔ ∃ s, .value s ∈ fields ∧ c ∈ s.links := by
  induction fields with
  | nil => simp [fieldLinks]
  | cons f rest ih => cases f <;> simp [fieldLinks, ih, or_and_right, exists_or]

theorem mem_fieldLinks_of_mem {f : Field Stored} (member : f ∈ fields) (link : c ∈ fieldLinks [f]) :
    c ∈ fieldLinks fields := by
  obtain ⟨s, here, linked⟩ := mem_fieldLinks.mp link
  exact mem_fieldLinks.mpr ⟨s, by rwa [mem_singleton.mp here], linked⟩

theorem fieldLinks_replicate (count : Nat) : fieldLinks (List.replicate count .absent) = [] := by
  induction count with
  | zero => rfl
  | succ count ih => rw [replicate_succ, fieldLinks_cons, ih]; rfl

/-- Replacing a field trades its links for those of the new one. -/
theorem count_fieldLinks_set {i : Nat} {current : Field Stored} (here : fields[i]? = some current)
    (incoming : Field Stored) (c : NodeId) :
    (fieldLinks (fields.set i incoming)).count c + (fieldLinks [current]).count c =
      (fieldLinks fields).count c + (fieldLinks [incoming]).count c := by
  induction fields generalizing i with
  | nil => simp at here
  | cons f rest ih =>
    cases i with
    | zero =>
      simp only [getElem?_cons_zero, Option.some.injEq] at here
      subst here
      rw [set_cons_zero, fieldLinks_cons incoming rest, fieldLinks_cons f rest, count_append,
        count_append]
      omega
    | succ i =>
      rw [set_cons_succ, fieldLinks_cons f (rest.set i incoming), fieldLinks_cons f rest, count_append,
        count_append]
      have := ih (by simpa using here)
      omega

end Stored

namespace Graph

variable {g : Graph} {count : NodeId → NodeId → Nat} {f : Node → Node} {id : NodeId}

/-- The handles that a node links to, with multiplicity; a dead handle links to nothing. -/
def outgoing (g : Graph) (id : NodeId) : List NodeId :=
  ((g.node? id).map Node.links).getD []

/-- The links of a live node are those of its fields. -/
theorem outgoing_of_live {n : Node} (live : g.node? id = some n) : g.outgoing id = n.links := by
  simp [outgoing, live]

/-- Every live node's table of parents holds the given counts. -/
def Counted (g : Graph) (count : NodeId → NodeId → Nat) : Prop :=
  ∀ c n, g.node? c = some n → n.Counts fun p => count p c

/-- The nodes are the same up to their snapshots and up to who links to them. -/
def SameCores (g g' : Graph) : Prop :=
  ∀ id, (g'.node? id).map Node.core = (g.node? id).map Node.core

namespace SameCores

theorem update (g : Graph) (id : NodeId) (keeps : ∀ n, (f n).core = n.core) : SameCores g (g.update id f) :=
  map_node?_update g id f Node.core keeps

section

variable {g' : Graph} (same : SameCores g g')

include same

theorem map (read : Node → α) (ofCore : ∀ n, read n.core = read n) (id : NodeId) :
    (g'.node? id).map read = (g.node? id).map read := by
  have cores := congrArg (Option.map read) (same id)
  simpa [Option.map_map, Function.comp_def, ofCore] using cores

theorem contains (id : NodeId) : g'.contains id = g.contains id := by
  have read := congrArg Option.isSome (same id)
  simpa [Graph.contains] using read

theorem outgoing (id : NodeId) : g'.outgoing id = g.outgoing id := by
  simp only [Graph.outgoing]
  rw [same.map Node.links (fun _ => rfl)]

end

/-- A live node stays live, with the same core. -/
theorem exists_live {g' : Graph} (same : SameCores g g') {n : Node} (live : g.node? id = some n) :
    ∃ n', g'.node? id = some n' ∧ n'.core = n.core := by
  have read := same id
  rw [live, Option.map_some, Option.map_eq_some_iff] at read
  exact read

end SameCores

/-- What no operation on links or snapshots touches: the cores, the tables of the arena and the settings. -/
structure Framed (g g' : Graph) : Prop where
  cores : SameCores g g'
  arena : Arena g → Arena g'
  schema : g'.schema = g.schema
  maxRounds : g'.maxRounds = g.maxRounds
  index : g'.index = g.index
  liveCount : g'.liveCount = g.liveCount

namespace Framed

theorem refl (g : Graph) : Framed g g :=
  ⟨fun _ => rfl, id, rfl, rfl, rfl, rfl⟩

theorem trans {g₁ g₂ g₃ : Graph} (first : Framed g₁ g₂) (second : Framed g₂ g₃) : Framed g₁ g₃ where
  cores id := (second.cores id).trans (first.cores id)
  arena := second.arena ∘ first.arena
  schema := second.schema.trans first.schema
  maxRounds := second.maxRounds.trans first.maxRounds
  index := second.index.trans first.index
  liveCount := second.liveCount.trans first.liveCount

theorem foldl {step : Graph → NodeId → Graph} (framed : ∀ g c, Framed g (step g c)) (g : Graph)
    (cs : List NodeId) : Framed g (cs.foldl step g) := by
  induction cs generalizing g with
  | nil => exact .refl g
  | cons c rest ih => exact (framed g c).trans (ih (step g c))

/-- An update that keeps the core of a node leaves these things alone. -/
theorem update (g : Graph) (id : NodeId) (keeps : ∀ n, (f n).core = n.core) :
    Framed g (g.update id f) where
  cores := .update g id keeps
  arena arena := by
    -- The key and the type name of a node are in its core.
    refine arena.update id (fun n => ?_) (fun n => ?_)
    · simpa [Node.core] using congrArg Node.key (keeps n)
    · simpa [Node.core] using congrArg (fun m : Node => m.layout.name) (keeps n)
  schema := by simp
  maxRounds := by simp
  index := by simp
  liveCount := liveCount_update g id f

theorem pending (g : Graph) (changed orphans created : List NodeId) :
    Framed g { g with changed := changed, orphans := orphans, created := created } where
  cores := fun _ => rfl
  arena arena := arena.congr rfl rfl rfl rfl
  schema := rfl
  maxRounds := rfl
  index := rfl
  liveCount := rfl

end Framed

/-- The target of a link has no other parents once the link is dropped. -/
def orphaned (parent : NodeId) (g : Graph) (child : NodeId) : Bool :=
  (g.node? child).any fun n => (n.dropParent parent).isUnreferenced child

/-- Dropping a link updates the table of its target, and queues a target that is orphaned by that. -/
theorem unlink_eq (parent : NodeId) (g : Graph) (child : NodeId) :
    unlink parent g child = { g.update child (·.dropParent parent) with
      orphans := if orphaned parent g child then child :: g.orphans else g.orphans } := by
  unfold unlink orphaned
  cases found : g.node? child with
  | none => simp [update, found]
  | some n =>
    -- The table is updated either way, and the queue only grows by an orphan.
    by_cases alone : (n.dropParent parent).isUnreferenced child
    · simp [update, found, alone]
    · simp [update, found, alone]

theorem Framed.link (parent : NodeId) (g : Graph) (child : NodeId) : Framed g (Graph.link parent g child) :=
  .update g child fun _ => rfl

theorem Framed.unlink (parent : NodeId) (g : Graph) (child : NodeId) : Framed g (Graph.unlink parent g child) := by
  rw [unlink_eq]
  exact (Framed.update g child (f := (·.dropParent parent)) fun _ => rfl).trans (.pending _ _ _ _)

theorem node?_unlink (parent : NodeId) (g : Graph) (child id : NodeId) :
    (Graph.unlink parent g child).node? id =
      if id = child then (g.node? child).map (·.dropParent parent) else g.node? id := by
  rw [unlink_eq, ← node?_update]
  rfl

theorem lone_links (parent : NodeId) (g : Graph) (cs : List NodeId) (j : NodeId) :
    ((cs.foldl (link parent) g).node? j).map Node.lone = (g.node? j).map Node.lone := by
  induction cs generalizing g with
  | nil => rfl
  | cons child rest ih =>
    rw [foldl_cons, ih]
    exact map_node?_update g child (·.addParent parent) Node.lone (fun _ => rfl) j

/-- Dropping links changes tables of parents only. -/
theorem lone_unlinks (parent : NodeId) (g : Graph) (cs : List NodeId) (id : NodeId) :
    ((cs.foldl (Graph.unlink parent) g).node? id).map Node.lone = (g.node? id).map Node.lone := by
  induction cs generalizing g with
  | nil => rfl
  | cons child rest ih =>
    rw [foldl_cons, ih, node?_unlink]
    split
    · -- What is left of the target without its table is what it was.
      rename_i same
      rw [same, Option.map_map]
      rfl
    · rfl

variable (counted : Counted g count)
include counted

/-- Counting a link raises one count by one. -/
theorem Counted.link (parent child : NodeId) :
    Counted (Graph.link parent g child) fun p c => count p c + if p = parent ∧ c = child then 1 else 0 := by
  intro c n live
  rw [Graph.link, node?_update] at live
  split at live
  · rename_i same
    subst same
    obtain ⟨m, found, rfl⟩ := Option.map_eq_some_iff.mp live
    simpa using (counted c m found).addParent parent
  · rename_i other
    simpa [other] using counted c n live

/-- Counting links from one node raises its counts by the multiplicities. -/
theorem Counted.links (parent : NodeId) (cs : List NodeId) :
    Counted (cs.foldl (Graph.link parent) g) fun p c => count p c + if p = parent then cs.count c else 0 := by
  induction cs generalizing g count with
  | nil => simpa using counted
  | cons child rest ih =>
    intro c n live
    -- The first link adds its one, and the rest add theirs.
    refine (ih (counted.link parent child) c n live).congr rfl fun p => ?_
    by_cases source : p = parent
    · by_cases target : c = child
      · simp [source, target]
        omega
      · simp [source, target, Ne.symm target]
    · simp [source]

/-- Dropping a link lowers one count by one. -/
theorem Counted.unlink (parent child : NodeId) :
    Counted (Graph.unlink parent g child) fun p c => count p c - if p = parent ∧ c = child then 1 else 0 := by
  intro c n live
  rw [node?_unlink] at live
  split at live
  · rename_i same
    subst same
    obtain ⟨m, found, rfl⟩ := Option.map_eq_some_iff.mp live
    simpa using (counted c m found).dropParent parent
  · rename_i other
    simpa [other] using counted c n live

/-- Dropping links from one node lowers its counts by the multiplicities. -/
theorem Counted.unlinks (parent : NodeId) (cs : List NodeId) :
    Counted (cs.foldl (Graph.unlink parent) g) fun p c => count p c - if p = parent then cs.count c else 0 := by
  induction cs generalizing g count with
  | nil => simpa using counted
  | cons child rest ih =>
    intro c n live
    -- The differences are cut off at zero, so taking them one after the other is taking their sum.
    refine (ih (counted.unlink parent child) c n live).congr rfl fun p => ?_
    by_cases source : p = parent
    · by_cases target : c = child
      · simp [source, target]
        omega
      · simp [source, target, Ne.symm target]
    · simp [source]

/-- Counts are a matter of the tables of parents alone. -/
theorem Counted.congr {g' : Graph} {other : NodeId → NodeId → Nat}
    (parents : ∀ id, (g'.node? id).map Node.parents = (g.node? id).map Node.parents)
    (same : ∀ p c, g'.contains c → other p c = count p c) : Counted g' other := by
  intro c n live
  have read := parents c
  rw [live, Option.map_some, eq_comm, Option.map_eq_some_iff] at read
  obtain ⟨m, found, table⟩ := read
  exact (counted c m found).congr table.symm fun p => same p c (by simp [contains, live])

end Graph

end EntityGraph
