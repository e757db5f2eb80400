import EntityGraph.Proofs.Graph.Met
import EntityGraph.Proofs.Graph.Recognition

/-! Merging again what was built: where every field is stored as merging stores it and links lead to entities that are
found by their snapshots, merging a snapshot finds everything as it is. It can fail only by going too deep. -/

namespace EntityGraph

open List

variable {infos : List FieldInfo} {depth : Nat} {info : FieldInfo} {stored : List (Field Stored)}
  {fields : List (Field Value)}

namespace Value

mutual

/-- The deepest level that storing a value at the given depth comes to. -/
def reach : Value → Nat → Nat
  | .record r, depth =>
    max depth (if r.layout.identifiable then max (depth + 1) (recordReach false r (depth + 1))
      else if r.layout.containsIdentifiable then recordReach true r (depth + 1)
      else 0)
  | .list items, depth => max depth (itemsReach items (depth + 1))
  | .map entries, depth => max depth (entriesReach entries (depth + 1))
  | _, depth => depth

/-- The deepest level that storing the elements of a list comes to. -/
def itemsReach : List (Option Value) → Nat → Nat
  | [], _ => 0
  | some v :: rest, depth => max (reach v depth) (itemsReach rest depth)
  | none :: rest, depth => itemsReach rest depth

/-- The deepest level that storing the entries of a map comes to. -/
def entriesReach : List (String × Option Value) → Nat → Nat
  | [], _ => 0
  | (_, some v) :: rest, depth => max (reach v depth) (entriesReach rest depth)
  | (_, none) :: rest, depth => entriesReach rest depth

/-- The deepest level that storing the fields of a record comes to: all of them, or those that may link. -/
def recordReach (all : Bool) : RecordOf Value → Nat → Nat
  | ⟨layout, fields⟩, depth => fieldsReach all fields layout.fields depth

/-- The deepest level that storing fields comes to. Pure derivations are left out. -/
def fieldsReach (all : Bool) : List (Field Value) → List FieldInfo → Nat → Nat
  | .value v :: fields, info :: infos, depth =>
    max (if info.isPure || !(all || info.mayLink) then 0 else reach v depth) (fieldsReach all fields infos depth)
  | .null :: fields, _ :: infos, depth => fieldsReach all fields infos depth
  | .absent :: fields, _ :: infos, depth => fieldsReach all fields infos depth
  | _, _, _ => 0

end

/-- The deepest level that storing a field comes to. -/
def fieldReach : Field Value → Nat → Nat
  | .value v, depth => reach v depth
  | _, _ => 0

theorem fieldsReach_cons (all : Bool) (f : Field Value) (fields : List (Field Value)) (info : FieldInfo)
    (infos : List FieldInfo) (depth : Nat) : fieldsReach all (f :: fields) (info :: infos) depth =
      max (if info.isPure || !(all || info.mayLink) then 0 else fieldReach f depth)
        (fieldsReach all fields infos depth) := by
  cases f <;> simp [fieldsReach, fieldReach]

end Value

/-- The deepest level that merging a record at the given depth comes to. -/
def RecordOf.reach (r : Record) (depth : Nat) : Nat :=
  max depth (Value.recordReach false r depth)

namespace Graph

section rests

variable {α β : Type} {g : Graph} {x : Step α} {m : Nat} {m' : Nat}

/-- The step gives an answer and leaves the graph as it is, unless it comes to a level that is too deep. -/
def Rests (x : Step α) (deepest : Nat) (a : α) (g : Graph) : Prop :=
  x g = if deepest ≤ Limits.depth then .ok a g else .error (.tooDeep Limits.depth) g

theorem Rests.pure (a : α) : Rests (Pure.pure a : Step α) 0 a g := by
  rw [Rests, if_pos (Nat.zero_le _)]
  rfl

theorem Rests.checkDepth (depth : Nat) : Rests (checkDepth depth) depth () g := by
  unfold Rests Graph.checkDepth
  by_cases deep : Limits.depth < depth
  · rw [if_pos deep, if_neg (Nat.not_le.mpr deep)]
    rfl
  · rw [if_neg deep, if_pos (Nat.not_lt.mp deep)]
    rfl

/-- One step after the other comes to the deeper of their levels. -/
theorem Rests.bind {f : α → Step β} {a : α} {b : β} (first : Rests x m a g) (second : Rests (f a) m' b g) :
    Rests (x >>= f) (max m m') b g := by
  unfold Rests at first second ⊢
  simp only [Bind.bind, EStateM.bind, first]
  by_cases shallow : m ≤ Limits.depth
  · rw [if_pos shallow]
    simp only [second, Nat.max_le, shallow, true_and]
  · rw [if_neg shallow, if_neg (fun both => shallow (Nat.max_le.mp both).1)]

theorem Rests.after {f : α → Step β} {a : α} {b : β} (first : x g = .ok a g) (second : Rests (f a) m b g) :
    Rests (x >>= f) m b g := by
  unfold Rests at second ⊢
  simp only [Bind.bind, EStateM.bind, first, second]

theorem Rests.of_eq {a : α} (rests : Rests x m a g) (same : m = m') : Rests x m' a g :=
  same ▸ rests

theorem Rests.then_pure {a : α} (rests : Rests x m a g) (f : α → β) :
    Rests (x >>= fun a => Pure.pure (f a)) m (f a) g :=
  (rests.bind (.pure (f a))).of_eq (Nat.max_zero m)

theorem Rests.map {a : α} (rests : Rests x m a g) (f : α → β) : Rests (f <$> x) m (f a) g := by
  unfold Rests at rests ⊢
  simp only [Functor.map, EStateM.map, rests]
  by_cases shallow : m ≤ Limits.depth
  · simp only [if_pos shallow]
  · simp only [if_neg shallow]

end rests

/-- Storing fields again leaves the graph as it is if storing the first one and storing the others does. -/
theorem Rests.storeFields_cons {g : Graph} {f : Field Value} {root : NodeId}
    {s : Field Stored} (left : info.isPure = true → s = .absent)
    (first : info.isPure = false → Rests (storeField f root depth) (Value.fieldReach f depth) s g)
    (rest : Rests (storeFields fields infos root depth) (Value.fieldsReach true fields infos depth) stored g) :
    Rests (storeFields (f :: fields) (info :: infos) root depth)
      (Value.fieldsReach true (f :: fields) (info :: infos) depth) (s :: stored) g := by
  rw [storeFields_eq, zip_cons_cons, mapM_cons, ← storeFields_eq, Value.fieldsReach_cons]
  refine .bind ?_ (rest.then_pure (s :: ·))
  -- A pure derivation is left out, and nothing is looked at.
  cases pure : info.isPure with
  | true =>
    rw [left pure]
    exact .pure _
  | false => exact first pure

/-- The records that stand for the given nodes are entities, and merging them leaves the graph as it is. -/
def Resting (records : NodeId → Record) (g : Graph) (cs : List NodeId) : Prop :=
  ∀ c ∈ cs, (records c).layout.identifiable = true ∧
    ∀ parentRoot depth, Rests (absorbAt (records c) parentRoot depth) ((records c).reach depth) c g

end Graph

/-- Fields agree in all positions but those of pure derivations. -/
def FieldInfo.Agrees (infos : List FieldInfo) (as bs : List (Field Value)) : Prop :=
  as.length = bs.length ∧ ∀ (i : Nat) (info : FieldInfo), infos[i]? = some info → info.isPure = false → as[i]? = bs[i]?

theorem FieldInfo.Agrees.cons {as bs : List (Field Value)} {b : Field Value}
    (agrees : Agrees (info :: infos) as (b :: bs)) :
    ∃ a rest, as = a :: rest ∧ (info.isPure = false → a = b) ∧ Agrees infos rest bs := by
  obtain ⟨length, fields⟩ := agrees
  cases as with
  | nil => cases length
  | cons a rest =>
    refine ⟨a, rest, rfl, fun given => ?_, by simpa using length, fun i other there given => ?_⟩
    · simpa using fields 0 info rfl given
    · simpa using fields (i + 1) other there given

/-- Derivations change nothing but what is derived. -/
theorem RecordOf.agrees_derive (F : Formulas) {layout : Layout} (accepted : layout.Accepted)
    (fields : List (Field Value)) : (RecordOf.derive F ⟨layout, fields⟩).layout = layout ∧
      FieldInfo.Agrees layout.fields (RecordOf.derive F ⟨layout, fields⟩).fields fields := by
  have derived := differs_foldl_deriveAt F ⟨layout, fields⟩ layout.deriveOrder
  refine ⟨derived.layout, derived.length, fun i info there given => derived.fields i fun member => ?_⟩
  obtain ⟨info', there', pure⟩ := (accepted.derived i).mp member
  rw [there] at there'
  cases there'
  rw [given] at pure
  cases pure

namespace Stored

variable {st : Field Stored}

section store

variable {s : Schema} {find : Key → Option NodeId} {F : Formulas} {records : NodeId → Record} {g : Graph}
  {root : NodeId}

open EntityGraph.Graph

/-- What is built of the elements of a list is stored as it was if each element is. -/
theorem rests_storeItems {stored : List (Option Stored)} (each : ∀ st, some st ∈ stored → Rests (store (expand F
      records st) root depth) ((expand F records st).reach depth) st g) :
    Rests (storeItems (expandItems F records stored) root depth)
      (Value.itemsReach (expandItems F records stored) depth) stored g := by
  induction stored with
  | nil => exact .pure _
  | cons item rest ih =>
    have later := ih fun st there => each st (.tail _ there)
    cases item with
    | none =>
      rw [expandItems, storeItems, Value.itemsReach]
      exact later.then_pure (none :: ·)
    | some st =>
      rw [expandItems, storeItems, Value.itemsReach]
      exact (each st mem_cons_self).bind (later.then_pure (some st :: ·))

/-- So is what is built of the entries of a map. -/
theorem rests_storeEntries {stored : List (String × Option Stored)} (each : ∀ k st, (k, some st) ∈ stored → Rests
      (store (expand F records st) root depth) ((expand F records st).reach depth) st g) :
    Rests (storeEntries (expandEntries F records stored) root depth)
      (Value.entriesReach (expandEntries F records stored) depth) stored g := by
  induction stored with
  | nil => exact .pure _
  | cons e rest ih =>
    have later := ih fun k st there => each k st (.tail _ there)
    rcases e with ⟨k, _ | st⟩
    · rw [expandEntries, storeEntries, Value.entriesReach]
      exact later.then_pure ((k, none) :: ·)
    · rw [expandEntries, storeEntries, Value.entriesReach]
      exact (each k st mem_cons_self).bind (later.then_pure ((k, some st) :: ·))

/-- So are fields, where those of pure derivations may be any. -/
theorem rests_storeFields
    (left : List.Forall₂ (fun (info : FieldInfo) f => info.isPure = true → f = .absent) infos stored)
    (each : ∀ st, .value st ∈ stored → Rests (store (expand F records st) root depth) ((expand F records
      st).reach depth) st g) {built : List (Field Value)}
    (agrees : FieldInfo.Agrees infos built (expandFields F records stored)) :
    Rests (storeFields built infos root depth) (Value.fieldsReach true built infos depth) stored g := by
  induction left generalizing built with
  | nil =>
    rw [expandFields] at agrees
    rw [eq_nil_of_length_eq_zero agrees.1, storeFields.eq_def, Value.fieldsReach.eq_def]
    exact .pure _
  | @cons info f _ _ first _ ih =>
    rw [expandFields_eq, map_cons, ← expandFields_eq] at agrees
    obtain ⟨_, rest, rfl, here, agrees⟩ := agrees.cons
    have later := ih (fun st there => each st (.tail _ there)) agrees
    refine .storeFields_cons first (fun given => ?_) later
    rw [here given]
    cases f with
    | value st => exact (each st mem_cons_self).map Field.value
    | null | absent => exact .pure _

/-- What is built of a stored value is stored as it was. -/
theorem rests_store (accepted : s.Accepted) (v : Value) {st : Stored} (own : s.owns v = true)
    (stored : ofValue? find v = some st) (resting : Resting records g st.links) (root : NodeId) (depth : Nat) :
    Rests (store (expand F records st) root depth) ((expand F records st).reach depth) st g := by
  induction v using Value.induct_inner generalizing st root depth with
  | node r identifiable _ =>
    -- An entity is stored as a link, and its record is merged again.
    simp only [ofValue?, identifiable, if_true, Option.map_eq_some_iff] at stored
    obtain ⟨id, -, rfl⟩ := stored
    obtain ⟨identifiable, again⟩ := resting id (by simp [links])
    rw [expand, store, Value.reach, if_pos identifiable]
    refine .bind (.checkDepth depth) ?_
    rw [if_pos identifiable]
    exact (again (some root) (depth + 1)).map Stored.link
  | rest v part ih =>
    obtain ⟨images, linked⟩ := inner_ofValue? part stored
    have inside : ∀ t ∈ st.inner, Rests (store (expand F records t) root (depth + 1))
        ((expand F records t).reach (depth + 1)) t g := by
      intro t there
      obtain ⟨w, here, image⟩ := exists_mem_of_forall₂ images there
      exact ih w here (Schema.owns_inner own w here) image (fun c link => resting c ((linked c).mpr ⟨t, there, link⟩))
        root (depth + 1)
    cases v with
    | record r =>
      rcases r with ⟨layout, fields⟩
      have anonymous : layout.identifiable = false := part
      rcases of_ofValue?_record anonymous stored with ⟨owner, parts, found, rfl⟩ | ⟨leaf, rfl⟩
      · obtain ⟨type, sized, -⟩ := Schema.ownsRecord_iff.mp own
        rw [expand, expandRecord]
        -- The record has the fields that were built, whatever its pure derivations give.
        have derived := RecordOf.agrees_derive F (accepted _ _ type) (expandFields F records parts)
        revert derived
        generalize RecordOf.derive F ⟨layout, expandFields F records parts⟩ = built
        rcases built with ⟨layout', fields'⟩
        rintro ⟨shape, agrees⟩
        obtain rfl : layout = layout' := shape.symm
        have again := rests_storeFields (leftOut_ofFields? sized found)
          (fun t there => inside t (mem_filterMap.mpr ⟨_, there, rfl⟩)) agrees
        simp only [store, Value.reach, Value.recordReach, storeInline, anonymous, owner, Bool.false_eq_true, if_false,
          if_true]
        exact .bind (.checkDepth depth) ((again.then_pure (RecordOf.mk layout)).map Stored.inline)
      · simp only [expand, store, Value.reach, anonymous, leaf, Bool.false_eq_true, if_false]
        exact .bind (.checkDepth depth) (.pure _)
    | list items =>
      rw [ofValue?] at stored
      obtain ⟨parts, -, rfl⟩ := Option.map_eq_some_iff.mp stored
      have again := rests_storeItems fun t there => inside t (mem_filterMap.mpr ⟨_, there, rfl⟩)
      rw [expand, store, Value.reach]
      exact .bind (.checkDepth depth) (again.then_pure Stored.list)
    | map entries =>
      rw [ofValue?] at stored
      obtain ⟨parts, -, rfl⟩ := Option.map_eq_some_iff.mp stored
      have again := rests_storeEntries fun k t there => inside t (mem_filterMap.mpr ⟨_, there, rfl⟩)
      rw [expand, store, Value.reach]
      exact .bind (.checkDepth depth) (again.then_pure Stored.map)
    | _ =>
      simp only [ofValue?, Option.some.injEq] at stored
      subst stored
      simp only [expand, store, Value.reach]
      exact (Rests.checkDepth depth).then_pure fun _ => _

end store

section same

variable {s : Schema}

/-- An own value is like itself. -/
theorem same_refl (accepted : s.Accepted) (st : Stored) (own : isOwn s st = true) : same st st = true := by
  induction st using Stored.induct with
  | plain v =>
    rw [isOwn] at own
    rw [same]
    exact v.equals_refl accepted own
  | link id => rw [same, beq_self_eq_true]
  | list items ih =>
    rw [isOwn, areOwnItems_iff] at own
    rw [same]
    induction items with
    | nil => rfl
    | cons item rest later => cases item <;> simp_all [sameItems]
  | map entries ih =>
    rw [isOwn, areOwnEntries_iff] at own
    rw [same]
    induction entries with
    | nil => rfl
    | cons e rest later =>
      have others := later (fun k st member => ih k st (.tail _ member))
        fun k st member => own k st (.tail _ member)
      rcases e with ⟨k, _ | st⟩
      · simp [sameEntries, others]
      · simp [sameEntries, others, ih k st mem_cons_self (own k st mem_cons_self)]
  | inline r ih =>
    rcases r with ⟨layout, fields⟩
    rw [isOwn, isOwnRecord, Bool.and_eq_true] at own
    rw [same, sameRecord, beq_self_eq_true, Bool.true_and]
    replace own := own.2
    induction fields with
    | nil => rfl
    | cons f rest later => cases f <;> simp_all [sameFields, areOwnFields]

theorem sameFields_refl (accepted : s.Accepted) (f : Field Stored) (own : areOwnFields s [f] = true) :
    sameFields [f] [f] = true := by
  cases f with
  | value st => simp [sameFields, same_refl accepted st (by simpa [areOwnFields] using own)]
  | _ => rfl

end same

/-- The field is what is stored of an own field where links are possible or not. -/
def IsImage (s : Schema) (linking : Bool) (st : Field Stored) : Prop :=
  ∃ (w : Write) (find : Key → Option NodeId), w.linking = linking ∧ s.ownsField w.field = true ∧
    w.image? find = some st

theorem IsImage.own {s : Schema} {linking : Bool} (image : IsImage s linking st) : areOwnFields s [st] = true := by
  obtain ⟨w, find, -, own, written⟩ := image
  exact w.areOwnFields_image? own written

theorem IsImage.eq_plainField {s : Schema} (image : IsImage s false st) (F : Formulas)
    (records : NodeId → Record) : st = plainField (expandField F records st) := by
  obtain ⟨w, find, linking, -, written⟩ := image
  rw [Write.image?_of_plain linking written, expandField_plainField]

/-- Where they are, what is built of a field is stored as it was. -/
theorem IsImage.rests {s : Schema} (accepted : s.Accepted) (image : IsImage s true st) {F : Formulas}
    {records : NodeId → Record} {g : Graph} (resting : g.Resting records (fieldLinks [st])) (root : NodeId)
    (depth : Nat) : Graph.Rests (Graph.storeField (expandField F records st) root depth)
      (Value.fieldReach (expandField F records st) depth) st g := by
  obtain ⟨⟨key, position, field, linking⟩, find, links, own, written⟩ := image
  cases links
  cases field with
  | absent =>
    cases written
    exact .pure _
  | null =>
    cases written
    exact .pure _
  | value v =>
    obtain ⟨inner, stored, rfl⟩ := Option.map_eq_some_iff.mp written
    rw [Schema.ownsField_value] at own
    rw [fieldLinks, fieldLinks, append_nil] at resting
    exact (rests_store accepted v own stored resting root depth).map Field.value

end Stored

namespace Graph

variable {s : Schema} {F : Formulas} {g : Graph} {i : Nat}

/-- A field that is stored again is left as it is. -/
theorem Rests.setField {id : NodeId} {n : Node} (live : g.node? id = some n) {st : Field Stored}
    (here : n.fields[i]? = some st) (alike : Stored.sameField st st = true) :
    Rests (Step.change fun g => g.setField id i st) 0 () g := by
  have set : g.setField id i st = .ok g := by
    rw [setField_eq live, here]
    simp only [alike, if_true]
  rw [Rests, if_pos (Nat.zero_le _), Step.change, set]

section merge

variable (accepted : s.Accepted) {records : NodeId → Record} {id : NodeId} {n : Node} (live : g.node? id = some n)
  (resting : Resting records g n.links) (root : NodeId) (depth : Nat)

include accepted live resting

/-- Merging a field that was built of a node leaves the graph as it is. -/
theorem rests_absorbField {st : Field Stored} (here : n.fields[i]? = some st)
    (image : Stored.IsImage s info.mayLink st) :
    Rests ((if info.mayLink then storeField (Stored.expandField F records st) root depth
        else pure (Stored.plainField (Stored.expandField F records st))) >>= fun s =>
          Step.change fun g => g.setField id i s)
      (if info.mayLink then Value.fieldReach (Stored.expandField F records st) depth else 0) () g := by
  have set := Rests.setField live here (Stored.sameFields_refl accepted _ image.own)
  cases links : info.mayLink with
  | true =>
    -- What the field links to are links of the node.
    rw [links] at image
    have below : Resting records g (Stored.fieldLinks [st]) := fun c link => resting c (mem_links_of_field here link)
    exact ((image.rests accepted below root depth).bind set).of_eq (Nat.max_zero _)
  | false =>
    rw [links] at image
    rw [← image.eq_plainField F records]
    exact (Rests.pure st).bind set

/-- Merging the fields that were built of a node, from some position on, leaves the graph as it is. Those of pure
derivations may be any. -/
theorem rests_absorbFields (each : ∀ (k : Nat) (info : FieldInfo) (f : Field
      Value), infos[k]? = some info → fields[k]? = some f → info.isPure = false → ∃ st, n.fields[i + k]? = some st ∧
      Stored.IsImage s info.mayLink st ∧ f = Stored.expandField F records st) :
    Rests (absorbFields fields infos id root depth i) (Value.fieldsReach false fields infos depth) () g := by
  induction fields generalizing infos i with
  | nil =>
    rw [absorbFields.eq_def, Value.fieldsReach.eq_def]
    exact .pure _
  | cons f fields ih =>
    cases infos with
    | nil =>
      rw [absorbFields.eq_def, Value.fieldsReach.eq_def]
      cases f <;> exact .pure _
    | cons info infos =>
      have rest := @ih infos (i + 1) fun k info f there field given => by
        rw [Nat.add_assoc, Nat.add_comm 1]
        exact each (k + 1) info f there field given
      rw [absorbFields_cons, Value.fieldsReach_cons]
      refine Rests.bind (a := ()) ?_ rest
      cases pure : info.isPure with
      | true => exact .pure _
      | false =>
        obtain ⟨st, here, image, rfl⟩ := each 0 info f rfl rfl pure
        cases st with
        | absent =>
          -- Nothing is merged of a field that is missing.
          refine (Rests.pure _).of_eq ?_
          cases info.mayLink <;> rfl
        | null | value =>
          refine (rests_absorbField accepted live resting root depth here image).of_eq ?_
          cases info.mayLink <;> rfl

end merge

/-- Every field is stored as merging stores own fields of its kind, and links lead to nodes of identifiable types. -/
structure Canonical (s : Schema) (g : Graph) : Prop where
  fields : ∀ id n, g.node? id = some n → ∀ (i : Nat) (info : FieldInfo) (f : Field Stored),
    n.layout.fields[i]? = some info → n.fields[i]? = some f → Stored.IsImage s info.mayLink f
  links : ∀ p c n, c ∈ g.outgoing p → g.node? c = some n → n.layout.identifiable = true

/-- Merging what an entity unfolds to again finds its node and leaves the graph as it is, if everything below is found
by what it unfolds to. -/
theorem Unfolds.rests_absorbAt (canonical : Canonical s g) (accepted : s.Accepted) (sound : Sound g)
    (typed : ∀ id n, g.node? id = some n → g.schema.type? n.layout.name = some n.layout) (same : g.schema = s)
    (keyed : ∀ id n r, g.node? id = some n → n.layout.identifiable = true → Unfolds F g id r → r.key = n.key)
    {id : NodeId} {r : Record} (unfolds : Unfolds F g id r) {n : Node} (live : g.node? id = some n)
    (identifiable : n.layout.identifiable = true) : r.layout = n.layout ∧
      ∀ parentRoot depth, Rests (absorbAt r parentRoot depth) (r.reach depth) id g := by
  induction unfolds generalizing n with
  | @intro id m records there children ih =>
    rw [live] at there
    cases there
    have key := keyed id m _ live identifiable (.intro records live children)
    -- The nodes below are entities, so they rest by induction.
    have resting : Resting records g m.links := fun c link => by
      have link' : c ∈ g.outgoing id := by rw [outgoing, live]; exact link
      obtain ⟨child, below⟩ := contains_iff.mp (sound.closed id c link')
      have entity := canonical.links id c child link' below
      obtain ⟨layout, again⟩ := ih c link below entity
      exact ⟨by rw [layout]; exact entity, again⟩
    -- Outside of pure derivations the record has the fields of the node.
    have type := typed id m live
    have derived := RecordOf.agrees_derive F (accepted _ _ (same ▸ type))
      (Stored.expandFields F records m.fields)
    rw [Node.content, Stored.expandRecord] at key ⊢
    revert key derived
    generalize RecordOf.derive F ⟨m.layout, Stored.expandFields F records m.fields⟩ = built
    rcases built with ⟨layout, fields⟩
    rintro key ⟨shape, agrees⟩
    cases shape
    refine ⟨rfl, fun parentRoot depth => ?_⟩
    have found : g.find? (RecordOf.key ⟨m.layout, fields⟩) = some id := by
      rw [key]
      exact sound.toArena.find? live
    -- A field that is not derived is one of the node's.
    have each : ∀ (k : Nat) (info : FieldInfo) (f : Field Value), m.layout.fields[k]? = some info →
        fields[k]? = some f → info.isPure = false → ∃ st, m.fields[0 + k]? = some st ∧
          Stored.IsImage s info.mayLink st ∧ f = Stored.expandField F records st := by
      intro k info f there field given
      rw [agrees.2 k info there given, Stored.getElem?_expandFields] at field
      obtain ⟨st, here, rfl⟩ := Option.map_eq_some_iff.mp field
      exact ⟨st, by rw [Nat.zero_add]; exact here, canonical.fields id m live k info st there here, rfl⟩
    rw [absorbAt, RecordOf.reach, Value.recordReach]
    refine .bind (.checkDepth depth) ?_
    refine .after (a := m.layout) (by simp only [Step.ask, Graph.layout, type]) ?_
    refine .after (a := id) (by simp only [ensure, found]) ?_
    refine .after (a := m.root) (by simp only [Step.ask, root, node, live]; rfl) ?_
    exact (rests_absorbFields accepted live resting m.root depth each).then_pure fun _ => id

end Graph

end EntityGraph
