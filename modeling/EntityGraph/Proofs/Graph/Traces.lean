import EntityGraph.Proofs.Graph.Storing

/-! Absorbing a record does what can be read off the record: all of it if it succeeds, and a first part of it if it
fails. -/

namespace EntityGraph

open List

namespace Stored

variable {fields : List (Field Stored)} {i : Nat} {incoming : Field Stored}

/-- Fields with one of them replaced, unless it is alike. -/
def put (fields : List (Field Stored)) (i : Nat) (incoming : Field Stored) : List (Field Stored) :=
  match fields[i]? with
  | none => fields
  | some current => if sameField current incoming then fields else fields.set i incoming

@[simp] theorem length_put (fields : List (Field Stored)) (i : Nat) (incoming : Field Stored) :
    (put fields i incoming).length = fields.length := by
  unfold put
  cases fields[i]? with
  | none => rfl
  | some current =>
    simp only
    split
    · rfl
    · exact length_set

/-- Other fields stay as they are. -/
theorem getElem?_put_ne {j : Nat} (other : i ≠ j) (incoming : Field Stored) :
    (put fields i incoming)[j]? = fields[j]? := by
  unfold put
  cases fields[i]? with
  | none => rfl
  | some current =>
    simp only
    split
    · rfl
    · exact getElem?_set_ne other

/-- The field that is put is there, or one that is alike. -/
theorem getElem?_put {current : Field Stored} (here : fields[i]? = some current) (incoming : Field Stored) :
    (put fields i incoming)[i]? = some incoming ∨
      (put fields i incoming)[i]? = some current ∧ sameField current incoming = true := by
  simp only [put, here]
  split
  · rename_i alike
    exact Or.inr ⟨here, alike⟩
  · exact Or.inl (getElem?_set_self (List.getElem?_eq_some_iff.mp here).1)

theorem put_of_alike (alike : ∀ current, fields[i]? = some current → sameField current incoming = true) :
    put fields i incoming = fields := by
  unfold put
  cases here : fields[i]? with
  | none => rfl
  | some current => simp only [alike current here, if_true]

/-- The links of fields after one is put are links of the old fields or of the new one. -/
theorem mem_links_put {c : NodeId} (member : c ∈ fieldLinks (put fields i incoming)) :
    c ∈ fieldLinks fields ∨ c ∈ fieldLinks [incoming] := by
  unfold put at member
  cases here : fields[i]? with
  | none => rw [here] at member; exact Or.inl member
  | some current =>
    simp only [here] at member
    split at member
    · exact Or.inl member
    · have trade := count_fieldLinks_set here incoming c
      have positive := count_pos_iff.mpr member
      rw [← count_pos_iff, ← count_pos_iff]
      omega

end Stored

namespace Graph

variable {g g' : Graph} {acts : List Act} {act : Act} {acts' : List Act} {w : Write} {id : NodeId} {r : Record}

/-- What one act does to a graph. -/
inductive Does (g : Graph) : Act → Graph → Prop where
  | found {r : Record} {layout : Layout} {id : NodeId} (type : g.schema.type? r.typeName = some layout)
      (found : g.find? r.key = some id) : Does g (.meet r) g
  | made {r : Record} {layout : Layout} {parentRoot : Option NodeId} {id : NodeId} {g' : Graph}
      (type : g.schema.type? r.typeName = some layout) (fresh : g.find? r.key = none)
      (made : g.create layout r.key parentRoot = (id, g')) :
      Does g (.meet r) (touch { g' with created := id :: g'.created } id)
  | wrote {w : Write} {id : NodeId} {incoming : Field Stored} {g' : Graph} (owner : g.find? w.key = some id)
      (image : w.image? g.find? = some incoming) (set : g.setField id w.position incoming = .ok g') :
      Does g (.write w) g'

/-- Acts are done one after the other. -/
inductive Performs : List Act → Graph → Graph → Prop where
  | nil (g : Graph) : Performs [] g g
  | cons {act : Act} {acts : List Act} {g g₁ g' : Graph} (first : Does g act g₁) (others : Performs acts g₁ g') :
      Performs (act :: acts) g g'

theorem Performs.single (does : Does g act g') : Performs [act] g g' :=
  .cons does (.nil g')

theorem Performs.append {g₁ : Graph} (first : Performs acts g g₁) (second : Performs acts' g₁ g') :
    Performs (acts ++ acts') g g' := by
  induction first with
  | nil => exact second
  | cons does _ ih => exact .cons does (ih second)

theorem Sound.contains_of_image (sound : Sound g) {incoming : Field Stored}
    (image : w.image? g.find? = some incoming) : ∀ c ∈ Stored.fieldLinks [incoming], g.contains c = true := by
  intro c link
  obtain ⟨-, r, -, -, known⟩ := Write.links_image? g.schema image link
  obtain ⟨m, there, -⟩ := sound.toArena.of_find? known
  exact contains_iff.mpr ⟨m, there⟩

theorem Does.edits (does : Does g act g') (sound : Sound g) : Edits g g' := by
  cases does with
  | found => exact .refl
  | made type fresh made => exact .single (.make fresh made)
  | wrote owner image set =>
    obtain ⟨n, live, -⟩ := sound.toArena.of_find? owner
    exact .single (.put (contains_iff.mpr ⟨n, live⟩) (sound.contains_of_image image) set)

/-- What is performed are edits. -/
theorem Performs.edits (performs : Performs acts g g') (sound : Sound g) : Edits g g' := by
  induction performs with
  | nil => exact .refl
  | cons does _ ih =>
    have first := does.edits sound
    exact first.trans (ih (first.sound sound).1)

theorem Grows.finds (grows : Grows g g') (sound : Sound g) (sound' : Sound g') : Finds g.find? g'.find? := by
  intro key id found
  obtain ⟨n, live, rfl⟩ := sound.toArena.of_find? found
  obtain ⟨n', live', stays⟩ := grows.live id n live
  rw [← stays.key]
  exact sound'.toArena.find? live'

/-- It keeps a graph sound, and what was found is found. -/
theorem Performs.sound (performs : Performs acts g g') (sound : Sound g) :
    Sound g' ∧ Grows g g' ∧ Finds g.find? g'.find? := by
  obtain ⟨sound', grows⟩ := (performs.edits sound).sound sound
  exact ⟨sound', grows, grows.finds sound sound'⟩

namespace Step

/-- A step performs the given acts if it succeeds, and the first ones of them if it fails, which it only does to refuse
a record. What it gives is a matter of the nodes that are found in the end. -/
def Traces {α : Type} (m : Step α) (acts : List Act) (gives : α → (Key → Option NodeId) → Prop) (g : Graph) : Prop :=
  Ends m g (fun a g' => Performs acts g g' ∧ gives a g'.find?)
    fun e g' => e.Refuses ∧ ∃ done, done <+: acts ∧ Performs done g g'

variable {α β : Type} {m : Step α} {gives : α → (Key → Option NodeId) → Prop}
  {gives' : β → (Key → Option NodeId) → Prop}

theorem Traces.pure {a : α} (holds : gives a g.find?) : Traces (pure a) [] gives g :=
  Ends.pure ⟨.nil g, holds⟩

/-- One step after the other. -/
theorem Traces.bind {f : α → Step β} (sound : Sound g) (first : Traces m acts gives g)
    (next : ∀ a g₁, Sound g₁ → g₁.schema = g.schema → Finds g.find? g₁.find? → gives a g₁.find? →
      Traces (f a) acts' gives' g₁) : Traces (m >>= f) (acts ++ acts') gives' g := by
  refine Ends.bind (Ends.mono first ?_ ?_)
  · rintro a g₁ ⟨performs₁, given⟩
    obtain ⟨sound₁, grows, finds⟩ := performs₁.sound sound
    refine (next a g₁ sound₁ grows.schema finds given).mono ?_ ?_
    · rintro b g₂ ⟨performs₂, given'⟩
      exact ⟨performs₁.append performs₂, given'⟩
    · rintro e g₂ ⟨refuses, done, first, performs₂⟩
      exact ⟨refuses, acts ++ done, prefix_append_right_inj acts |>.mpr first, performs₁.append performs₂⟩
  · rintro e g₁ ⟨refuses, done, first, performs⟩
    exact ⟨refuses, done, first.trans (prefix_append acts acts'), performs⟩

/-- A function of a result. -/
theorem Traces.map {f : α → β} (first : Traces m acts gives g) (same : ∀ a find, gives a find → gives' (f a) find) :
    Traces (f <$> m) acts gives' g :=
  Ends.map (Ends.mono first (fun a _ held => ⟨held.1, same a _ held.2⟩) fun _ _ failed => failed)

/-- A step that does nothing comes first. -/
theorem Traces.after {f : α → Step β} (sound : Sound g) (first : Traces m [] gives g)
    (next : ∀ a g₁, Sound g₁ → g₁.schema = g.schema → Finds g.find? g₁.find? → gives a g₁.find? →
      Traces (f a) acts gives' g₁) : Traces (m >>= f) acts gives' g :=
  first.bind sound next

theorem Traces.then_pure (first : Traces m acts gives g) {f : α → β}
    (same : ∀ a find, gives a find → gives' (f a) find) : Traces (m >>= fun a => Pure.pure (f a)) acts gives' g := by
  rw [← map_eq_pure_bind]
  exact first.map same

/-- A step for each element of a list, where what is given of each stays so. -/
theorem Traces.mapM {f : α → Step β} {acts : α → List Act} {image? : (Key → Option NodeId) → α → Option β}
    (stays : ∀ a find find' b, Finds find find' → image? find a = some b → image? find' a = some b) {as : List α}
    {schema : Schema} (each : ∀ a ∈ as, ∀ g, Sound g → g.schema = schema →
      Traces (f a) (acts a) (fun b find => image? find a = some b) g) (sound : Sound g) (same : g.schema = schema) :
    Traces (as.mapM f) (as.flatMap acts) (fun bs find => as.mapM (image? find) = some bs) g := by
  induction as generalizing g with
  | nil => exact .pure rfl
  | cons a rest ih =>
    rw [mapM_cons, flatMap_cons]
    refine (each a mem_cons_self g sound same).bind sound fun b g₁ sound₁ schema₁ _ first => ?_
    rw [← append_nil (rest.flatMap acts)]
    refine (ih (fun a later => each a (.tail _ later)) sound₁ (schema₁.trans same)).bind sound₁
      fun bs g₂ _ _ finds later => ?_
    exact .pure (by simp [mapM_cons, stays a _ _ b finds first, later])

theorem Traces.none {e : GraphError} (refuses : e.Refuses) : e.Refuses ∧ ∃ done, done <+: acts ∧ Performs done g g :=
  ⟨refuses, [], nil_prefix, .nil g⟩

theorem Traces.checkDepth (depth : Nat) : Traces (Graph.checkDepth depth) [] (fun _ _ => True) g := by
  unfold Graph.checkDepth
  split
  · exact Ends.throw (Traces.none trivial)
  · exact Ends.pure ⟨.nil g, trivial⟩

theorem Traces.layout (name : String) :
    Traces (Step.ask fun g => g.layout name) [] (fun layout _ => g.schema.type? name = some layout) g := by
  unfold Traces
  cases found : g.schema.type? name with
  | none =>
    simp only [Ends, Step.ask, Graph.layout, found]
    exact Traces.none trivial
  | some layout =>
    simp only [Ends, Step.ask, Graph.layout, found]
    exact ⟨.nil g, trivial⟩

theorem Traces.root (sound : Sound g) {key : Key} (owner : g.find? key = some id) :
    Traces (Step.ask fun g => g.root id) [] (fun _ _ => True) g := by
  obtain ⟨n, live, -⟩ := sound.toArena.of_find? owner
  have answer : g.root id = .ok n.root := by simp [Graph.root, Graph.node, live]
  exact Ends.ask answer ⟨.nil g, trivial⟩

/-- The node of a record that is met is found from then on. -/
theorem Traces.ensure (sound : Sound g) {layout : Layout} (type : g.schema.type? r.typeName = some layout)
    (parentRoot : Option NodeId) :
    Traces (Graph.ensure layout r.key parentRoot) [.meet r] (fun id find => find r.key = some id) g := by
  unfold Traces Ends Graph.ensure
  cases found : g.find? r.key with
  | some id => exact ⟨.single (.found type found), found⟩
  | none =>
    cases made : g.create layout r.key parentRoot with
    | mk id g' => exact ⟨.single (.made type found made), sound.find?_made found made⟩

/-- Replacing a field by the stored form of what is written. -/
theorem Traces.setField (sound : Sound g) {incoming : Field Stored}
    (owner : g.find? w.key = some id) (image : w.image? g.find? = some incoming) :
    Traces (Step.change fun g => g.setField id w.position incoming) [.write w] (fun _ _ => True) g := by
  obtain ⟨n, live, -⟩ := sound.toArena.of_find? owner
  obtain ⟨g', set, -⟩ := sound.setField (contains_iff.mpr ⟨n, live⟩) w.position (sound.contains_of_image image)
  exact Ends.change set ⟨.single (.wrote owner image set), trivial⟩

end Step

open Step

/-- Storing a value does what is read off the value, and gives its stored form. -/
def StoreTraces (v : Value) : Prop :=
  ∀ (root : NodeId) (depth : Nat) (g : Graph), Sound g →
    Traces (store v root depth) (Acts.ofValue g.schema v) (fun s find => Stored.ofValue? find v = some s) g

/-- Storing a field does what is read off the field, and gives what is written. -/
theorem storeField_traces_of (key : Key) (i : Nat) {f : Field Value} (each : ∀ v, f = .value v → StoreTraces v)
    (root : NodeId) (depth : Nat) (sound : Sound g) :
    Traces (storeField f root depth) (Acts.ofField g.schema f)
      (fun s find => Write.image? find ⟨key, i, f, true⟩ = some s) g := by
  cases f with
  | absent => exact .pure rfl
  | null => exact .pure rfl
  | value v => exact (each v rfl root depth g sound).map fun s find stored => by simp [Write.image?, stored]

/-- Merging fields into the node of a key does what is read off the fields. -/
theorem absorbFields_traces_of (key : Key) {fields : List (Field Value)} (infos : List FieldInfo)
    (each : ∀ v, .value v ∈ fields → StoreTraces v) (root : NodeId) (depth i : Nat) (sound : Sound g)
    (owner : g.find? key = some id) :
    Traces (absorbFields fields infos id root depth i) (Acts.merging g.schema key fields infos i)
      (fun _ _ => True) g := by
  induction fields generalizing infos i g with
  | nil =>
    rw [absorbFields_nil id root depth i (Or.inl rfl), Acts.merging_nil g.schema key i (Or.inl rfl)]
    exact .pure trivial
  | cons f fields ih =>
    cases infos with
    | nil =>
      rw [absorbFields_nil id root depth i (Or.inr rfl), Acts.merging_nil g.schema key i (Or.inr rfl)]
      exact .pure trivial
    | cons info infos =>
      rw [absorbFields_cons, Acts.merging_cons, Acts.mergingField]
      -- Pure derivations and what is absent are passed over.
      have first : Traces (if info.isPure || f.isAbsent then pure ()
          else (if info.mayLink then storeField f root depth else pure (Stored.plainField f)) >>= fun s =>
            Step.change fun g => g.setField id i s)
          (if info.isPure || f.isAbsent then [] else
            (if info.mayLink then Acts.ofField g.schema f else []) ++ [.write ⟨key, i, f, info.mayLink⟩])
          (fun _ _ => True) g := by
        split
        · exact .pure trivial
        · -- What is written is the stored form of the field, or the field as it is.
          have stored : Traces (if info.mayLink then storeField f root depth else pure (Stored.plainField f))
              (if info.mayLink then Acts.ofField g.schema f else [])
              (fun s find => Write.image? find ⟨key, i, f, info.mayLink⟩ = some s) g := by
            split
            · rename_i linking
              rw [linking]
              exact storeField_traces_of key i (fun v same => each v (same ▸ mem_cons_self)) root depth sound
            · rename_i plain
              refine .pure ?_
              cases f <;> simp [Write.image?, plain, Stored.plainField]
          refine stored.bind sound fun s g₁ sound₁ _ finds image => ?_
          exact Traces.setField sound₁ (w := ⟨key, i, f, info.mayLink⟩) (finds _ _ owner) image
      refine first.bind sound fun _ g₁ sound₁ schema₁ finds _ => ?_
      rw [← schema₁]
      exact ih infos (fun v later => each v (.tail _ later)) (i + 1) sound₁ (finds _ _ owner)

/-- Merging a record does what is read off the record, and gives its node. -/
theorem absorbAt_traces_of (each : ∀ v, .value v ∈ r.fields → StoreTraces v)
    (parentRoot : Option NodeId) (depth : Nat) (g : Graph) (sound : Sound g) :
    Traces (absorbAt r parentRoot depth) (Acts.ofRecord g.schema r) (fun id find => find r.key = some id) g := by
  rcases r with ⟨own, fields⟩
  rw [absorbAt, Acts.ofRecord]
  refine (Traces.checkDepth depth).after sound fun _ g₁ sound₁ schema₁ _ _ => ?_
  rw [← schema₁]
  refine (Traces.layout own.name).after sound₁ fun layout g₂ sound₂ schema₂ _ type => ?_
  rw [← schema₂] at type ⊢
  rw [← singleton_append]
  refine (Traces.ensure sound₂ (r := ⟨own, fields⟩) type parentRoot).bind sound₂ fun id g₃ sound₃ schema₃ _ found => ?_
  rw [← schema₃] at type ⊢
  refine (Traces.root sound₃ found).after sound₃ fun root g₄ sound₄ schema₄ finds _ => ?_
  rw [← schema₄] at type ⊢
  rw [Schema.fieldsOf, type, ← append_nil (Acts.merging _ _ _ _ _)]
  refine (absorbFields_traces_of _ layout.fields each root depth 0 sound₄ (finds _ _ found)).bind sound₄
    fun _ g₅ _ _ finds' _ => ?_
  exact .pure (finds' _ _ (finds _ _ found))

/-- Storing a value does what is read off it. -/
theorem store_traces (v : Value) : StoreTraces v := by
  induction v using Value.induct_inner with
  | node r identifiable ih =>
    intro root depth g sound
    rw [store, Acts.ofValue, if_pos identifiable, if_pos identifiable]
    refine (Traces.checkDepth depth).after sound fun _ g₁ sound₁ schema₁ _ _ => ?_
    rw [← schema₁]
    refine (absorbAt_traces_of ih (some root) (depth + 1) g₁ sound₁).map fun id find found => ?_
    rw [Stored.ofValue?, if_pos identifiable, found]
    rfl
  | rest v part ih =>
    intro root depth g sound
    rw [Acts.ofValue_eq g.schema part]
    -- An element is stored as its value is.
    have item : ∀ o : Option Value, (∀ w, o = some w → w ∈ v.inner) → ∀ g₁, Sound g₁ → g₁.schema = g.schema →
        Traces (storeItem root (depth + 1) o) (o.toList.flatMap (Acts.ofValue g.schema))
          (fun s find => Stored.ofItem? find o = some s) g₁ := by
      rintro (_ | w) inside g₁ sound₁ schema₁
      · exact .pure rfl
      · rw [Option.toList_some, flatMap_singleton, ← schema₁]
        exact (ih w (inside w rfl) root (depth + 1) g₁ sound₁).map fun s find stored => by
          simp [Stored.ofItem?, stored]
    cases v with
    | record r =>
      rcases r with ⟨layout, fields⟩
      have anonymous : layout.identifiable = false := part
      simp only [store, anonymous, Bool.false_eq_true, if_false, Value.inner]
      refine (Traces.checkDepth depth).after sound fun _ g₁ sound₁ schema₁ _ _ => ?_
      split
      · rename_i holds
        rw [Value.kept, filterMap_eq_flatMap_toList, flatMap_assoc, storeInline, storeFields_eq,
          ← map_eq_pure_bind, Functor.map_map]
        refine (Traces.mapM (fun e _ _ _ => Stored.ofField?_of_finds e.2 e.1) (fun e listed g₂ sound₂ schema₂ => ?_)
          sound₁ schema₁).map fun parts find found => ?_
        · -- A pure derivation is left out, and any other field is stored as it would be written.
          cases pure : e.2.isPure with
          | true => exact .pure (by cases e.1 <;> simp [Stored.ofField?, pure])
          | false =>
            have field := storeField_traces_of (RecordOf.key ⟨layout, fields⟩) 0 (f := e.1) (fun w same => ih w (by
              simp only [Value.inner, holds, if_true]
              exact mem_filterMap.mpr ⟨e, listed, by simp [pure, same, Field.value?]⟩)) root (depth + 1) sound₂
            rw [schema₂] at field
            rcases e with ⟨f, info⟩
            cases f <;> simpa [pure, Field.value?, Acts.ofField, Stored.ofField?, Write.image?] using field
        · simp [Stored.ofValue?, Stored.ofRecord?, Stored.ofFields?_eq, anonymous, holds, found]
      · rename_i leaf
        exact .pure (by simp [Stored.ofValue?, anonymous, leaf])
    | list items =>
      rw [store]
      refine (Traces.checkDepth depth).after sound fun _ g₁ sound₁ schema₁ _ _ => ?_
      rw [Value.inner, filterMap_eq_flatMap_toList, flatMap_assoc, storeItems_eq]
      refine (Traces.mapM (fun o _ _ _ => Stored.ofItem?_of_finds o) (fun o listed => item o
        fun w same => mem_filterMap.mpr ⟨o, listed, same⟩) sound₁ schema₁).then_pure fun parts find found => ?_
      rw [Stored.ofValue?, Stored.ofItems?_eq, found]
      rfl
    | map entries =>
      rw [store]
      refine (Traces.checkDepth depth).after sound fun _ g₁ sound₁ schema₁ _ _ => ?_
      rw [Value.inner, filterMap_eq_flatMap_toList, flatMap_assoc, storeEntries_eq]
      refine (Traces.mapM (fun e _ _ _ => Stored.ofPair?_of_finds e) (fun e listed g₂ sound₂
        schema₂ => ?_) sound₁ schema₁).then_pure fun parts find found => ?_
      · refine (item e.2 (fun w same => mem_filterMap.mpr ⟨e, listed, same⟩) g₂ sound₂ schema₂).map
          fun s find held => ?_
        rw [Stored.ofPair?, held]
        rfl
      · rw [Stored.ofValue?, Stored.ofEntries?_eq, found]
        rfl
    | _ =>
      simp only [store]
      exact (Traces.checkDepth depth).after sound fun _ _ _ _ _ _ => .pure (by simp only [Stored.ofValue?])

/-- So does merging a record. -/
theorem absorbAt_traces (r : Record) (parentRoot : Option NodeId) (depth : Nat) (g : Graph) (sound : Sound g) :
    Traces (absorbAt r parentRoot depth) (Acts.ofRecord g.schema r) (fun id find => find r.key = some id) g :=
  absorbAt_traces_of (fun v _ => store_traces v) parentRoot depth g sound

/-- Absorbing a record performs what is read off the record and sweeps; after a failure it has performed a first part,
and sweeps the nodes that were made as well. -/
theorem absorb_traces (sound : Sound g) (r : Record) (parentRoot : Option NodeId) :
    Ends (absorb r parentRoot) g
      (fun id g' => ∃ merged, Performs (Acts.ofRecord g.schema r) g merged ∧ merged.find? r.key = some id ∧
        g' = sweep { merged with created := [] })
      (fun _ g' => ∃ done merged, done <+: Acts.ofRecord g.schema r ∧ Performs done g merged ∧
        g' = sweep { merged with created := [], orphans := merged.created ++ merged.orphans }) := by
  have traces := absorbAt_traces r parentRoot 0 g sound
  unfold Traces Ends at traces
  unfold Ends absorb
  cases result : absorbAt r parentRoot 0 g with
  | ok id merged =>
    rw [result] at traces
    exact ⟨merged, traces.1, traces.2, rfl⟩
  | error e merged =>
    rw [result] at traces
    obtain ⟨-, done, first, performs⟩ := traces
    exact ⟨done, merged, first, performs, rfl⟩

/-- If absorbing succeeds, the merged graph is swept. -/
theorem absorb_ends (sound : Sound g) (r : Record) (parentRoot : Option NodeId) :
    Ends (absorb r parentRoot) g
      (fun id g' => ∃ merged, absorbAt r parentRoot 0 g = .ok id merged ∧ Edits g merged ∧
        merged.lookup r = some id ∧ Swept { merged with created := [] } g') fun _ _ => True := by
  have traces := absorbAt_traces r parentRoot 0 g sound
  unfold Traces Ends at traces
  unfold Ends absorb
  cases result : absorbAt r parentRoot 0 g with
  | ok id merged =>
    rw [result] at traces
    obtain ⟨performs, found⟩ := traces
    have sound' := (performs.sound sound).1
    exact ⟨merged, rfl, performs.edits sound, found, (sound'.quiet (.pending merged _ _ _)).sweep⟩
  | error e merged => trivial

/-- Storing results does what is read off them. -/
theorem storeResults_traces {key : NodeId → Key} {results : List (Task × Field Value)} (sound : Sound g)
    (known : ∀ e ∈ results, g.find? (key e.1.id) = some e.1.id) :
    Traces (storeResults results) (Acts.ofResults g.schema key results) (fun _ _ => True) g := by
  induction results generalizing g with
  | nil => exact .pure trivial
  | cons e rest ih =>
    rcases e with ⟨t, f⟩
    have owner : g.find? (key t.id) = some t.id := known (t, f) mem_cons_self
    rw [storeResults, Acts.ofResults, flatMap_cons, ← Acts.ofResults, append_assoc,
      ← nil_append (Acts.ofField _ _ ++ _)]
    -- The root is asked for, the field stored below it, and written.
    refine (Traces.root sound owner).bind sound fun root g₁ sound₁ schema₁ finds₁ _ => ?_
    rw [← schema₁]
    refine (storeField_traces_of (key t.id) t.field (fun v _ => store_traces v) root 0 sound₁).bind sound₁
      fun stored g₂ sound₂ schema₂ finds₂ image => ?_
    have owner₂ := finds₂ _ _ (finds₁ _ _ owner)
    refine (Traces.setField sound₂ (w := ⟨key t.id, t.field, f, true⟩) owner₂ image).bind sound₂
      fun _ g₃ sound₃ schema₃ finds₃ _ => ?_
    rw [← schema₂, ← schema₃]
    exact ih sound₃ fun e member =>
      finds₃ _ _ (finds₂ _ _ (finds₁ _ _ (known e (.tail _ member))))

end Graph

end EntityGraph
