import EntityGraph.Proofs.Graph.Acts

/-! Records that are met are owed a link: each of them is one that was known, or a later write to another entity links
to it. -/

namespace EntityGraph

open List

/-- The stored form, wherever it is given, links to the node of the key. -/
def Reaches {α : Type} (image? : (Key → Option NodeId) → Option α) (links : α → List NodeId) (key : Key) : Prop :=
  ∀ find stored id, image? find = some stored → find key = some id → id ∈ links stored

/-- The write makes the node of another key link to that of the given one. -/
structure Write.LinksTo (w : Write) (key : Key) : Prop where
  other : w.key ≠ key
  reaches : Reaches (fun find => w.image? find) (fun f => Stored.fieldLinks [f]) key

namespace Acts

variable {known : Key → Prop} {acts : List Act} {acts' : List Act}

/-- Each of the keys is known, or one of the acts links to it. -/
def Covers (known : Key → Prop) (acts : List Act) (keys : Key → Prop) : Prop :=
  ∀ key, keys key → known key ∨ ∃ w, .write w ∈ acts ∧ w.LinksTo key

/-- Acts that cover what a whole links to cover what a part of it links to, and so do more acts. -/
theorem Covers.of_part {α β : Type} {whole? : (Key → Option NodeId) → Option α} {links : α → List NodeId}
    {part? : (Key → Option NodeId) → Option β} {links' : β → List NodeId}
    (covers : Covers known acts (Reaches whole? links)) (more : acts ⊆ acts')
    (part : ∀ find stored, whole? find = some stored → ∃ s, part? find = some s ∧ links' s ⊆ links stored) :
    Covers known acts' (Reaches part? links') := by
  intro key reaches
  -- A key that the part reaches is one that the whole reaches.
  have whole : Reaches whole? links key := by
    intro find stored id image found
    obtain ⟨s, inner, subset⟩ := part find stored image
    exact subset (reaches find s id inner found)
  rcases covers key whole with old | ⟨w, member, linking⟩
  · exact Or.inl old
  · exact Or.inr ⟨w, more member, linking⟩

/-- The key of each record that is met is known, or a later write links to it, also one of those that follow the acts.
From then on it is known. -/
def Owed (known : Key → Prop) (later : List Act) : List Act → Prop
  | [] => True
  | .meet r :: rest =>
    Covers known (rest ++ later) (· = r.key) ∧ Owed (fun key => known key ∨ key = r.key) later rest
  | .write _ :: rest => Owed known later rest

theorem Owed.mono {known' : Key → Prop} {later : List Act} (owed : Owed known later acts)
    (more : ∀ key, known key → known' key) : Owed known' later acts := by
  induction acts generalizing known known' with
  | nil => trivial
  | cons act rest ih =>
    cases act with
    | meet r =>
      exact ⟨fun key same => (owed.1 key same).imp_left (more key), ih owed.2 fun key => Or.imp_left (more key)⟩
    | write w => exact ih owed more

theorem Owed.append {later : List Act} (first : Owed known (acts' ++ later) acts)
    (second : Owed known later acts') : Owed known later (acts ++ acts') := by
  induction acts generalizing known with
  | nil => exact second
  | cons act rest ih =>
    cases act with
    | meet r =>
      have head := first.1
      rw [← append_assoc] at head
      exact ⟨head, ih first.2 (second.mono fun _ => Or.inl)⟩
    | write w => exact ih first second

/-- A write that links covers whatever its value links to, but for the node that is written to. -/
theorem covers_of_write {key : Key} (owner : known key) (i : Nat) (v : Value) (later : List Act) :
    Covers known (.write ⟨key, i, .value v, true⟩ :: later) (Reaches (Stored.ofValue? · v) Stored.links) := by
  intro key' reaches
  by_cases same : key = key'
  · exact Or.inl (same ▸ owner)
  · refine Or.inr ⟨_, mem_cons_self, same, fun find stored id image found => ?_⟩
    simp only [Write.image?, if_true] at image
    obtain ⟨s, whole, rfl⟩ := Option.map_eq_some_iff.mp image
    have links := reaches find s id whole found
    simpa [Stored.fieldLinks] using links

section owed

variable (s : Schema) {later : List Act}

theorem Owed.flatMap {values : List Value} (each : ∀ v ∈ values, ∀ rest, Owed known (rest ++ later) (ofValue s v)) :
    Owed known later (values.flatMap (ofValue s)) := by
  induction values with
  | nil => trivial
  | cons v others ih =>
    rw [flatMap_cons]
    exact Owed.append (each v mem_cons_self _) (ih fun w member => each w (.tail _ member))

/-- Merging fields into the node of a known key meets records that the fields link to. -/
theorem owed_of_fields (key : Key) {fields : List (Field Value)} (owner : known key)
    (each : ∀ v, .value v ∈ fields → ∀ {later}, Covers known later (Reaches (Stored.ofValue? · v) Stored.links) → Owed
      known later (ofValue s v)) (infos : List FieldInfo) (i : Nat) :
    Owed known later (merging s key fields infos i) := by
  induction fields generalizing infos i with
  | nil =>
    rw [merging_nil s key i (Or.inl rfl)]
    trivial
  | cons f fields ih =>
    cases infos with
    | nil =>
      rw [merging_nil s key i (Or.inr rfl)]
      trivial
    | cons info infos =>
      rw [merging_cons, mergingField]
      refine Owed.append ?_ (ih (fun v member => each v (.tail _ member)) infos (i + 1))
      split
      · trivial
      · -- The value is stored first, and then the field is written that covers its links.
        refine Owed.append ?_ (trivial : Owed known _ [.write _])
        split
        · rename_i linking
          rw [linking]
          cases f with
          | value v => exact each v mem_cons_self (covers_of_write owner i v _)
          | _ => trivial
        · trivial

/-- Storing a value meets records that are owed a link, if what the value links to is covered later. -/
theorem owed_ofValue (v : Value) (covers : Covers known later (Reaches (Stored.ofValue? · v) Stored.links)) :
    Owed known later (ofValue s v) := by
  induction v using Value.induct_inner generalizing known later with
  | node r identifiable ih =>
    rw [ofValue, if_pos identifiable, ofRecord_eq]
    -- The value is a link to the node of the record. From its own meeting on the record is known.
    refine ⟨fun key same => ?_, owed_of_fields s r.key (Or.inr rfl) (fun v member _ => ih v member) _ 0⟩
    subst same
    have linked := covers r.key fun find stored id image found => by
      simp only [Stored.ofValue?, identifiable, if_true, found, Option.map_some, Option.some.injEq] at image
      simp [← image, Stored.links]
    rcases linked with old | ⟨w, member, links⟩
    · exact Or.inl old
    · exact Or.inr ⟨w, mem_append_right _ member, links⟩
  | rest v part ih =>
    rw [ofValue_eq s part]
    -- The value has the links of the values inside it.
    refine Owed.flatMap s fun w inside others => ih w inside ?_
    refine covers.of_part (subset_append_right _ _) fun find stored image => ?_
    obtain ⟨parts, links⟩ := Stored.inner_ofValue? part image
    obtain ⟨t, there, stored'⟩ := exists_mem_of_forall₂ parts.flip inside
    exact ⟨t, stored', fun c link => (links c).mpr ⟨t, there, link⟩⟩

/-- Results that are stored in nodes of known keys meet records that are owed a link. -/
theorem owed_ofResults {key : NodeId → Key} {results : List (Graph.Task × Field Value)}
    (owners : ∀ e ∈ results, known (key e.1.id)) : Owed known [] (ofResults s key results) := by
  induction results with
  | nil => trivial
  | cons e rest ih =>
    rcases e with ⟨t, f⟩
    rw [ofResults, flatMap_cons, ← ofResults]
    refine Owed.append (Owed.append ?_ (trivial : Owed known _ [.write _]))
      (ih fun e member => owners e (.tail _ member))
    cases f with
    | value v => exact owed_ofValue s v (covers_of_write (owners (t, _) mem_cons_self) t.field v _)
    | null => trivial
    | absent => trivial

end owed

end Acts

end EntityGraph
