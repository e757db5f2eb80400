import EntityGraph.Graph.Build
import EntityGraph.Proofs.Graph.Absorb

/-! Snapshots of live nodes are always possible, and taking them changes nothing but snapshots. -/

namespace EntityGraph

open List

variable {records : NodeId → Record} {F' : Formulas}

/-- The pure derivations of a record do not depend on contextual formulas. -/
theorem RecordOf.derive_congr {F : Formulas} (pure : F.pure = F'.pure) : RecordOf.derive F = RecordOf.derive F' := by
  have evaluate : Derivation.evaluate? F = Derivation.evaluate? F' := by
    funext read d
    cases d <;> simp only [Derivation.evaluate?, pure]
  have step : deriveAt F = deriveAt F' := by
    funext r i
    simp only [deriveAt, evaluate]
  funext r
  simp only [RecordOf.derive, step]

namespace Stored

variable {records' : NodeId → Record}

mutual

/-- The value of a stored one, given the records that links stand for. -/
def expand (F : Formulas) (records : NodeId → Record) : Stored → Value
  | .plain v => v
  | .link id => .record (records id)
  | .list items => .list (expandItems F records items)
  | .map entries => .map (expandEntries F records entries)
  | .inline r => .record (expandRecord F records r)

/-- The elements of a stored list. -/
def expandItems (F : Formulas) (records : NodeId → Record) : List (Option Stored) → List (Option Value)
  | [] => []
  | some s :: rest => some (expand F records s) :: expandItems F records rest
  | none :: rest => none :: expandItems F records rest

/-- The entries of a stored map. -/
def expandEntries (F : Formulas) (records : NodeId → Record) :
    List (String × Option Stored) → List (String × Option Value)
  | [] => []
  | (k, some s) :: rest => (k, some (expand F records s)) :: expandEntries F records rest
  | (k, none) :: rest => (k, none) :: expandEntries F records rest

/-- The record of a stored one, with every pure derivation run. -/
def expandRecord (F : Formulas) (records : NodeId → Record) : RecordOf Stored → Record
  | ⟨layout, fields⟩ => RecordOf.derive F ⟨layout, expandFields F records fields⟩

/-- The fields of a stored record. -/
def expandFields (F : Formulas) (records : NodeId → Record) : List (Field Stored) → List (Field Value)
  | [] => []
  | .value s :: rest => .value (expand F records s) :: expandFields F records rest
  | .null :: rest => .null :: expandFields F records rest
  | .absent :: rest => .absent :: expandFields F records rest

end

theorem expandItems_eq (F : Formulas) (records : NodeId → Record) (items : List (Option Stored)) :
    expandItems F records items = items.map (Option.map (expand F records)) := by
  induction items with
  | nil => rfl
  | cons item rest ih => cases item <;> simp [expandItems, ih]

theorem expandEntries_eq (F : Formulas) (records : NodeId → Record) (entries : List (String × Option Stored)) :
    expandEntries F records entries = entries.map fun e => (e.1, e.2.map (expand F records)) := by
  induction entries with
  | nil => rfl
  | cons e rest ih =>
    rcases e with ⟨k, item⟩
    cases item <;> simp [expandEntries, ih]

/-- The field of a stored one, given the records that links stand for. -/
def expandField (F : Formulas) (records : NodeId → Record) : Field Stored → Field Value
  | .value st => .value (st.expand F records)
  | .null => .null
  | .absent => .absent

theorem expandFields_eq (F : Formulas) (records : NodeId → Record) (fields : List (Field Stored)) :
    expandFields F records fields = fields.map (expandField F records) := by
  induction fields with
  | nil => rfl
  | cons f rest ih => cases f <;> simp [expandFields, expandField, ih]

/-- A value depends on pure formulas and on the records of its own links only. -/
theorem expand_congr {F : Formulas} (pure : F.pure = F'.pure) (s : Stored)
    (same : ∀ c ∈ s.links, records c = records' c) : expand F records s = expand F' records' s := by
  induction s using Stored.induct with
  | plain v => simp only [expand]
  | link id => simp only [expand, same id (by simp [links])]
  | list items ih =>
    simp only [expand, expandItems_eq]
    refine congrArg Value.list (map_congr_left fun item member => Option.map_congr fun s here => ?_)
    exact ih s (here ▸ member) fun c link => same c (by rw [links]; exact mem_itemLinks.mpr ⟨s, here ▸ member, link⟩)
  | map entries ih =>
    simp only [expand, expandEntries_eq]
    refine congrArg Value.map (map_congr_left fun e member => Prod.ext rfl (Option.map_congr fun s here => ?_))
    have entry : (e.1, some s) ∈ entries := here ▸ member
    exact ih _ s entry fun c link => same c (by rw [links]; exact mem_entryLinks.mpr ⟨s, ⟨_, entry⟩, link⟩)
  | inline r ih =>
    rcases r with ⟨layout, fields⟩
    simp only [expand, expandRecord, expandFields_eq, RecordOf.derive_congr pure]
    refine congrArg (fun fs => Value.record (RecordOf.derive F' ⟨layout, fs⟩)) (map_congr_left ?_)
    rintro (_ | _ | s) member
    · rfl
    · rfl
    · exact congrArg Field.value (ih s member fun c link => same c (by
        rw [links, recordLinks]
        exact mem_fieldLinks.mpr ⟨s, member, link⟩))

/-- So does a record. -/
theorem expandRecord_congr {F : Formulas} (pure : F.pure = F'.pure) (r : RecordOf Stored)
    (same : ∀ c ∈ recordLinks r, records c = records' c) : expandRecord F records r = expandRecord F' records' r := by
  simpa [expand] using expand_congr pure (.inline r) (by simpa [links] using same)

end Stored

/-- The fields of a node with their layout. -/
def Node.content (n : Node) : RecordOf Stored :=
  ⟨n.layout, n.fields⟩

namespace Graph

open Step

variable {g : Graph} {id : NodeId}

section resolve

variable (F : Formulas)

/-- A stored value resolves to what it expands to with the snapshots or stand-ins of its links. -/
theorem resolve_eq_expand (s : Stored) (known : ∀ c ∈ s.links, target F g c = .ok (records c)) :
    resolve F g s = .ok (s.expand F records) := by
  induction s using Stored.induct with
  | plain v => rw [resolve, Stored.expand]
  | link id => rw [resolve, Stored.expand, known id (by simp [Stored.links])]; rfl
  | list items ih =>
    have each : ∀ s, some s ∈ items → resolve F g s = .ok (s.expand F records) := fun s member =>
      ih s member fun c link => known c (by rw [Stored.links]; exact Stored.mem_itemLinks.mpr ⟨s, member, link⟩)
    have parts : resolveItems F g items = .ok (Stored.expandItems F records items) := by
      clear ih known
      induction items with
      | nil => rfl
      | cons item rest later =>
        cases item <;> simp_all [resolveItems, Stored.expandItems, bind, Except.bind, pure, Except.pure]
    rw [resolve, Stored.expand, parts]
    rfl
  | map entries ih =>
    have each : ∀ k s, (k, some s) ∈ entries → resolve F g s = .ok (s.expand F records) :=
      fun k s member => ih k s member fun c link => known c (by
        rw [Stored.links]
        exact Stored.mem_entryLinks.mpr ⟨s, ⟨k, member⟩, link⟩)
    have parts : resolveEntries F g entries = .ok (Stored.expandEntries F records entries) := by
      clear ih known
      induction entries with
      | nil => rfl
      | cons e rest later =>
        rcases e with ⟨k, item⟩
        have others := later fun k s member => each k s (.tail _ member)
        cases item with
        | none => rw [resolveEntries, others]; rfl
        | some s => rw [resolveEntries, each k s mem_cons_self, others]; rfl
    rw [resolve, Stored.expand, parts]
    rfl
  | inline r ih =>
    rcases r with ⟨layout, fields⟩
    have each : ∀ s, .value s ∈ fields → resolve F g s = .ok (s.expand F records) := fun s member =>
      ih s member fun c link => known c (by
        rw [Stored.links, Stored.recordLinks]
        exact Stored.mem_fieldLinks.mpr ⟨s, member, link⟩)
    have parts : resolveFields F g fields = .ok (Stored.expandFields F records fields) := by
      clear ih known
      induction fields with
      | nil => rfl
      | cons f rest later =>
        cases f <;> simp_all [resolveFields, Stored.expandFields, bind, Except.bind, pure, Except.pure]
    rw [resolve, Stored.expand, resolveRecord, Stored.expandRecord, parts]
    rfl

/-- The record of a live node, given what its links resolve to. -/
theorem recordOf_eq_expand {n : Node} (live : g.node? id = some n)
    (known : ∀ c ∈ n.links, target F g c = .ok (records c)) :
    g.recordOf F id = .ok (Stored.expandRecord F records n.content) := by
  have whole : resolve F g (.inline n.content) = .ok ((Stored.inline n.content).expand F records) :=
    resolve_eq_expand F _ (by rwa [Stored.links])
  rw [resolve, Stored.expand] at whole
  obtain ⟨r, made, same⟩ := Except.map_eq_ok.mp whole
  cases same
  simp only [recordOf, node, live, bind, Except.bind]
  exact made

/-- The record of a live node can be made. -/
theorem Sound.recordOf_ok (sound : Sound g) (live : g.contains id = true) : ∃ r, g.recordOf F id = .ok r := by
  obtain ⟨n, found⟩ := contains_iff.mp live
  -- The links of a live node lead to live nodes, whose snapshots or stand-ins are known.
  have known : ∀ c ∈ n.links, target F g c = .ok ((target F g c).toOption.getD ⟨n.layout, []⟩) := by
    intro c link
    obtain ⟨m, there⟩ := contains_iff.mp (sound.closed id c (by rwa [outgoing_of_live found]))
    simp only [target, node, there]
    rfl
  exact ⟨_, recordOf_eq_expand F found known⟩

end resolve

/-- A search within a set of nodes that links do not leave sees and finds nodes of the set only. -/
theorem Sound.search_inside (sound : Sound g) {inside : NodeId → Prop}
    (closed : ∀ p c, inside p → c ∈ g.outgoing p → inside c) (fuel : Nat) (here : inside id)
    (live : g.contains id = true) (s : Search) :
    ∃ seen found, g.search fuel s id = .ok ⟨seen ++ s.seen, found ++ s.found⟩ ∧ (∀ j ∈ seen, inside j) ∧
      ∀ j ∈ found, inside j := by
  induction fuel generalizing id s with
  | zero => exact ⟨[], [], rfl, by simp, by simp⟩
  | succ fuel ih =>
    obtain ⟨n, there⟩ := contains_iff.mp live
    unfold Graph.search
    split
    · exact ⟨[], [], rfl, by simp, by simp⟩
    · simp only [node, there, bind, Except.bind]
      split
      · exact ⟨[id], [], rfl, by simpa using here, by simp⟩
      · -- The links are followed one after the other, all within the set.
        have each : ∀ (cs : List NodeId) (s : Search), (∀ c ∈ cs, c ∈ g.outgoing id) →
            ∃ seen found, cs.foldlM (g.search fuel) s = .ok ⟨seen ++ s.seen, found ++ s.found⟩ ∧
              (∀ j ∈ seen, inside j) ∧ ∀ j ∈ found, inside j := by
          intro cs
          induction cs with
          | nil => exact fun s _ => ⟨[], [], rfl, by simp, by simp⟩
          | cons c rest step =>
            intro s edges
            have edge := edges c mem_cons_self
            obtain ⟨seen, found, first, seen_, found_⟩ := ih (closed id c here edge) (sound.closed id c edge) s
            obtain ⟨seen', found', later, seen'_, found'_⟩ := step ⟨seen ++ s.seen, found ++ s.found⟩
              fun d member => edges d (.tail _ member)
            refine ⟨seen' ++ seen, found' ++ found, ?_, fun j member => ?_, fun j member => ?_⟩
            · rw [foldlM_cons, first, append_assoc, append_assoc]
              exact later
            · exact (mem_append.mp member).elim (seen'_ j) (seen_ j)
            · exact (mem_append.mp member).elim (found'_ j) (found_ j)
        obtain ⟨seen, found, searched, seen_, found_⟩ := each n.links.reverse ⟨id :: s.seen, s.found⟩ fun c member => by
          rw [outgoing_of_live there]
          simpa using member
        refine ⟨seen ++ [id], id :: found, ?_, fun j member => ?_, fun j member => ?_⟩
        · rw [searched, append_assoc]
          rfl
        · rcases mem_append.mp member with earlier | own
          · exact seen_ j earlier
          · rw [mem_singleton.mp own]
            exact here
        · rcases mem_cons.mp member with rfl | earlier
          · exact here
          · exact found_ j earlier

theorem AllLive.quiet {g' : Graph} {ids : List NodeId} (live : AllLive g ids) (quiet : Quiet g g') : AllLive g' ids :=
  fun id member => by rw [quiet.cores.contains]; exact live id member

theorem Quiet.keep (g : Graph) (id : NodeId) (r : Record) :
    Quiet g (g.update id fun n => { n with cached := some r }) :=
  .update g id (fun _ => rfl) (fun _ => rfl)

theorem build_of_dead (F : Formulas) (dead : g.node? id = none) : Graph.build F id g = .error (.unknownNode id) g := by
  simp [Graph.build, bind, EStateM.bind, Step.ask, node, dead]

end Graph

end EntityGraph
