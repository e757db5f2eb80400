import EntityGraph.Proofs.Graph.Storing

/-! The order of what absorbing does: the declared fields of every record that is met are written, and a field that
links is written after everything that its links lead to. -/

namespace EntityGraph

open List

/-- The write is one of a declared field of the record, which is no pure derivation. -/
structure Write.Of (s : Schema) (r : Record) (w : Write) : Prop where
  key : w.key = r.key
  info : ∃ info, (s.fieldsOf r.typeName)[w.position]? = some info ∧ info.isPure = false ∧
    w.linking = info.mayLink
  field : r.fields[w.position]? = some w.field
  declared : w.field.isDeclared = true

namespace Acts

variable {s : Schema} {acts : List Act} {r : Record} {i : Nat} {done acts' : List Act} {w : Write}

/-- Every write that links comes after all that storing its field does. Some acts may have been done before. -/
def Ready (s : Schema) : List Act → List Act → Prop
  | _, [] => True
  | done, act :: rest =>
    (∀ w, act = .write w → w.linking = true → ofField s w.field ⊆ done) ∧ Ready s (done ++ [act]) rest

/-- What is ready is so part by part. -/
theorem ready_append : Ready s done (acts ++ acts') ↔ Ready s done acts ∧ Ready s (done ++ acts) acts' := by
  induction acts generalizing done with
  | nil => simp [Ready]
  | cons act rest ih =>
    rw [cons_append, Ready, Ready, ih, append_assoc, singleton_append, and_assoc]

theorem Ready.of_first {first : List Act} (ready : Ready s done acts) (part : first <+: acts) : Ready s done first := by
  obtain ⟨rest, rfl⟩ := part
  exact (ready_append.mp ready).1

/-- Acts that write the declared fields of the records that they meet, and no other fields, each in its time. -/
structure Tidy (s : Schema) (acts : List Act) : Prop where
  sourced : ∀ w, .write w ∈ acts → ∃ r, .meet r ∈ acts ∧ w.Of s r
  complete : ∀ r, .meet r ∈ acts → ∀ w : Write, w.Of s r → .write w ∈ acts
  ready : ∀ done, Ready s done acts

theorem Tidy.nil (s : Schema) : Tidy s [] :=
  ⟨by simp, by simp, fun _ => trivial⟩

/-- Tidy acts one after the other are tidy. -/
theorem Tidy.append (first : Tidy s acts) (second : Tidy s acts') : Tidy s (acts ++ acts') := by
  refine ⟨fun w member => ?_, fun r member w own => ?_, fun done =>
    ready_append.mpr ⟨first.ready done, second.ready _⟩⟩
  · rcases mem_append.mp member with here | there
    · obtain ⟨r, met, own⟩ := first.sourced w here
      exact ⟨r, mem_append_left _ met, own⟩
    · obtain ⟨r, met, own⟩ := second.sourced w there
      exact ⟨r, mem_append_right _ met, own⟩
  · rcases mem_append.mp member with here | there
    · exact mem_append_left _ (first.complete r here w own)
    · exact mem_append_right _ (second.complete r there w own)

/-- Acts that write the declared fields of a record from the given position on, and of the records that they meet. -/
structure Merges (s : Schema) (r : Record) (i : Nat) (acts : List Act) : Prop where
  sourced : ∀ w, .write w ∈ acts → w.Of s r ∨ ∃ r', .meet r' ∈ acts ∧ w.Of s r'
  complete : ∀ r', .meet r' ∈ acts → ∀ w : Write, w.Of s r' → .write w ∈ acts
  own : ∀ w : Write, w.Of s r → i ≤ w.position → .write w ∈ acts
  ready : ∀ done, Ready s done acts

/-- Behind the last field nothing is left to write. -/
theorem Merges.nil (finished : r.fields.drop i = [] ∨ (s.fieldsOf r.typeName).drop i = []) : Merges s r i [] := by
  refine ⟨by simp, by simp, fun w own later => ?_, fun _ => trivial⟩
  obtain ⟨info, there, -⟩ := own.info
  have inside := (List.getElem?_eq_some_iff.mp own.field).1
  have inside' := (List.getElem?_eq_some_iff.mp there).1
  rcases finished with none | none
  · have := drop_eq_nil_iff.mp none
    omega
  · have := drop_eq_nil_iff.mp none
    omega

theorem Merges.pass (later : Merges s r (i + 1) acts) (passed : ∀ w : Write, w.Of s r → w.position ≠ i) :
    Merges s r i acts :=
  ⟨later.sourced, later.complete, fun w own from_ => later.own w own (by have := passed w own; omega), later.ready⟩

/-- A field is stored and written before those behind it. -/
theorem Merges.cons {stored : List Act} (first : Tidy s stored) (own : w.Of s r)
    (here : w.position = i) (done : w.linking = true → ofField s w.field ⊆ stored)
    (later : Merges s r (i + 1) acts) : Merges s r i ((stored ++ [.write w]) ++ acts) := by
  refine ⟨fun w' member => ?_, fun r' member w' own' => ?_, fun w' own' from_ => ?_, fun before => ?_⟩
  · -- A write comes from storing the field, is the one made here, or comes later.
    simp only [mem_append, mem_singleton, Act.write.injEq] at member
    rcases member with (inner | rfl) | after
    · obtain ⟨r', met, own'⟩ := first.sourced w' inner
      exact Or.inr ⟨r', by simp [met], own'⟩
    · exact Or.inl own
    · rcases later.sourced w' after with own' | ⟨r', met, own'⟩
      · exact Or.inl own'
      · exact Or.inr ⟨r', by simp [met], own'⟩
  · simp only [mem_append, mem_singleton, reduceCtorEq, or_false] at member ⊢
    rcases member with inner | after
    · exact Or.inl (Or.inl (first.complete r' inner w' own'))
    · exact Or.inr (later.complete r' after w' own')
  · -- A write at this position is the one that is made here.
    by_cases same : w'.position = i
    · have equal : w' = w := by
        rcases w with ⟨key, position, field, linking⟩
        rcases w' with ⟨key', position', field', linking'⟩
        obtain ⟨info, there, -, links⟩ := own.info
        obtain ⟨info', there', -, links'⟩ := own'.info
        simp only at here same there there' links links'
        subst here same
        have field := own'.field.symm.trans own.field
        simp only [Option.some.injEq] at field
        rw [there, Option.some.injEq] at there'
        simp only [Write.mk.injEq, true_and]
        exact ⟨own'.key.trans own.key.symm, field, by rw [links, links', there']⟩
      simp [equal]
    · have := later.own w' own' (by omega)
      simp [this]
  · refine ready_append.mpr ⟨ready_append.mpr ⟨first.ready before, ?_, trivial⟩, later.ready _⟩
    rintro w' same linking
    cases same
    exact fun act member => mem_append_right _ (done linking member)

theorem getElem?_of_drop {α : Type} {items rest : List α} {a : α} (split : items.drop i = a :: rest) :
    items[i]? = some a ∧ items.drop (i + 1) = rest := by
  constructor
  · rw [← head?_drop, split]
    rfl
  · rw [← tail_drop, split]
    rfl

section tidy

variable (s : Schema)

/-- What merging fields does writes those from the given position on, if what storing their values does is tidy. -/
theorem merges_of_tidy (r : Record) (tidy : ∀ v, .value v ∈ r.fields → Tidy s (ofValue s v))
    {fields : List (Field Value)} {infos : List FieldInfo} (there : r.fields.drop i = fields)
    (known : (s.fieldsOf r.typeName).drop i = infos) : Merges s r i (merging s r.key fields infos i) := by
  induction fields generalizing infos i with
  | nil =>
    rw [merging_nil s r.key i (Or.inl rfl)]
    exact .nil (Or.inl there)
  | cons f fields ih =>
    cases infos with
    | nil =>
      rw [merging_nil s r.key i (Or.inr rfl)]
      exact .nil (Or.inr known)
    | cons info infos =>
      obtain ⟨field, rest⟩ := getElem?_of_drop there
      obtain ⟨described, others⟩ := getElem?_of_drop known
      have later := ih rest others
      rw [merging_cons, mergingField]
      split
      · -- A pure derivation is not written, and a field that is absent is not declared.
        rename_i skipped
        refine later.pass fun w own same => ?_
        obtain ⟨info', described', kept, -⟩ := own.info
        have declared := own.declared
        have here := own.field
        rw [same, described, Option.some.injEq] at described'
        rw [same, field, Option.some.injEq] at here
        rw [← described'] at kept
        rw [← here] at declared
        simp only [Field.isDeclared, Bool.not_eq_true'] at declared
        simp [kept, declared] at skipped
      · rename_i written
        simp only [Bool.or_eq_true, not_or, Bool.not_eq_true] at written
        refine Merges.cons ?_ ⟨rfl, ⟨info, described, written.1, rfl⟩, field, by simp [Field.isDeclared, written.2]⟩ rfl
          ?_ later
        · split
          · cases f with
            | value v => exact tidy v (mem_of_getElem? field)
            | _ => exact .nil s
          · exact .nil s
        · intro linking
          rw [if_pos linking]
          exact fun _ member => member

theorem Tidy.flatMap {values : List Value} (each : ∀ v ∈ values, Tidy s (ofValue s v)) :
    Tidy s (values.flatMap (ofValue s)) := by
  induction values with
  | nil => exact .nil s
  | cons v rest ih =>
    rw [flatMap_cons]
    exact (each v mem_cons_self).append (ih fun w later => each w (.tail _ later))

/-- A record is met first, and then its fields are written. -/
theorem Merges.tidy (merges : Merges s r 0 acts) : Tidy s (.meet r :: acts) := by
  refine ⟨fun w member => ?_, fun r' member w of => ?_, fun done => ⟨fun w same => ?_, merges.ready _⟩⟩
  · rcases mem_cons.mp member with same | after
    · cases same
    · rcases merges.sourced w after with of | ⟨r', met, of⟩
      · exact ⟨_, mem_cons_self, of⟩
      · exact ⟨r', mem_cons_of_mem _ met, of⟩
  · rcases mem_cons.mp member with same | after
    · cases same
      exact mem_cons_of_mem _ (merges.own w of (Nat.zero_le _))
    · exact mem_cons_of_mem _ (merges.complete r' after w of)
  · cases same

/-- What storing a value does is tidy. -/
theorem tidy_ofValue (v : Value) : Tidy s (ofValue s v) := by
  induction v using Value.induct_inner with
  | node r identifiable ih =>
    rw [ofValue, if_pos identifiable, ofRecord_eq]
    exact (merges_of_tidy s r ih rfl rfl).tidy
  | rest v part ih =>
    rw [ofValue_eq s part]
    exact .flatMap s ih

/-- Merging a record writes all of its fields. -/
theorem merges_merging (r : Record) : Merges s r 0 (merging s r.key r.fields (s.fieldsOf r.typeName) 0) :=
  merges_of_tidy s r (fun v _ => tidy_ofValue s v) rfl rfl

theorem tidy_ofRecord (r : Record) : Tidy s (ofRecord s r) := by
  rw [ofRecord_eq]
  exact (merges_merging s r).tidy

theorem tidy_ofField (f : Field Value) : Tidy s (ofField s f) := by
  cases f with
  | value v => exact tidy_ofValue s v
  | null => exact .nil s
  | absent => exact .nil s

/-- Each result is stored before it is written. -/
theorem ready_ofResults (key : NodeId → Key) (results : List (Graph.Task × Field Value)) (done : List Act) :
    Ready s done (ofResults s key results) := by
  induction results generalizing done with
  | nil => trivial
  | cons e rest ih =>
    rw [ofResults, flatMap_cons, ← ofResults]
    refine ready_append.mpr ⟨ready_append.mpr ⟨(tidy_ofField s e.2).ready done, ?_, trivial⟩, ih _⟩
    rintro w same -
    cases same
    exact fun act member => mem_append_right _ member

/-- The declared fields of the records in results are written. -/
theorem complete_ofResults {key : NodeId → Key} {results : List (Graph.Task × Field Value)}
    (met : .meet r ∈ ofResults s key results) (of : w.Of s r) : .write w ∈ ofResults s key results := by
  obtain ⟨e, listed, among⟩ := mem_flatMap.mp met
  refine mem_flatMap.mpr ⟨e, listed, ?_⟩
  simp only [mem_append, mem_singleton, reduceCtorEq, or_false] at among
  exact mem_append_left _ ((tidy_ofField s e.2).complete r among w of)

end tidy

end Acts

end EntityGraph
