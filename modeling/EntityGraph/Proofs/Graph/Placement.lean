import EntityGraph.Proofs.Graph.Acts
import EntityGraph.Proofs.Graph.Results
import EntityGraph.Proofs.Record.State

/-! Where absorbing puts the fields of a record: at the positions at which the record has them. They stand under their
own names as far as the record's layout and the graph's schema have the same names at these positions. -/

namespace EntityGraph.Graph

open List

open Step

variable {g : Graph} {j : NodeId} {i : Nat} {acts : List Act} {g₁ g' : Graph} {act : Act} {n' : Node}

/-- The last write to a field is one of the writes to it. -/
theorem of_lastWrite? {key : Key} {w : Write}
    (last : Acts.lastWrite? key i acts = some w) : .write w ∈ acts ∧ w.key = key ∧ w.position = i := by
  induction acts with
  | nil => cases last
  | cons act rest ih =>
    cases act with
    | meet r =>
      obtain ⟨member, hit⟩ := ih last
      exact ⟨mem_cons_of_mem _ member, hit⟩
    | write w' =>
      rw [Acts.lastWrite?] at last
      cases later : Acts.lastWrite? key i rest with
      | some w'' =>
        rw [later] at last
        cases last
        obtain ⟨member, hit⟩ := ih later
        exact ⟨mem_cons_of_mem _ member, hit⟩
      | none =>
        rw [later] at last
        change (if w'.key = key ∧ w'.position = i then some w' else none) = some w at last
        split at last
        · rename_i hit
          cases last
          exact ⟨mem_cons_self, hit⟩
        · cases last

/-- The field of a node at a position. What is not there is absent. -/
def fieldAt (g : Graph) (j : NodeId) (i : Nat) : Field Stored :=
  ((g.node? j).bind fun n => n.fields[i]?).getD .absent

theorem fieldAt_of_live {n : Node} (live : g.node? j = some n) (i : Nat) :
    g.fieldAt j i = n.fields[i]?.getD .absent := by
  rw [fieldAt, live, Option.bind_some]

theorem fieldAt_of_dead (dead : g.node? j = none) (i : Nat) : g.fieldAt j i = .absent := by
  rw [fieldAt, dead]
  rfl

/-- What one act does to a field of a node that it leaves: it stays as it was, absent in a new node, or is written. -/
theorem Does.fieldAt (does : Does g act g₁) (sound : Sound g) {n₁ : Node}
    (live : g₁.node? j = some n₁) (inside : i < n₁.fields.length) :
    Acts.lastWrite? n₁.key i [act] = none ∧ g₁.fieldAt j i = g.fieldAt j i ∨
      ∃ w, Acts.lastWrite? n₁.key i [act] = some w ∧ w.IsIn g.find? (g₁.fieldAt j i) := by
  obtain ⟨n, origin, same⟩ := does.origin sound live
  obtain ⟨-, key, fields, -⟩ := same_of_lone same
  rw [key, fieldAt_of_live live, fields]
  rw [fields] at inside
  cases origin with
  | kept before other =>
    refine Or.inl ⟨Acts.lastWrite?_eq_none fun w member hit _ => ?_, (fieldAt_of_live before i).symm⟩
    refine other w (mem_singleton.mp member).symm ?_
    rw [hit]
    exact sound.toArena.find? before
  | made type fresh dead =>
    refine Or.inl ⟨rfl, ?_⟩
    rw [fieldAt_of_dead dead]
    simp only [Node.new, getElem?_replicate]
    split <;> rfl
  | @wrote w j n incoming owner before image =>
    -- The node that is written to is the one of the write's key.
    obtain ⟨_, found, hit⟩ := sound.toArena.of_find? owner
    rw [before] at found
    cases found
    simp only [Stored.length_put] at inside
    by_cases position : w.position = i
    · subst position
      right
      refine ⟨w, by simp [Acts.lastWrite?, hit], incoming, image, ?_⟩
      rcases Stored.getElem?_put (getElem?_eq_getElem inside) incoming with put | ⟨put, alike⟩
      · exact Or.inl (by rw [put, Option.getD_some])
      · exact Or.inr (by rw [put, Option.getD_some]; exact alike)
    · left
      refine ⟨Acts.lastWrite?_eq_none fun w' member _ => ?_, ?_⟩
      · rw [mem_singleton, Act.write.injEq] at member
        rw [member]
        exact position
      · rw [fieldAt_of_live before, Stored.getElem?_put_ne position]

/-- Before a node is made nothing is written to its key. -/
theorem Does.lastWrite?_eq_none (does : Does g act g₁) (sound : Sound g) (grows : Grows g g') (sound' : Sound g')
    (live : g'.node? j = some n') (dead : g.node? j = none) (i : Nat) : Acts.lastWrite? n'.key i [act] = none := by
  refine Acts.lastWrite?_eq_none fun w member hit _ => ?_
  rw [mem_singleton] at member
  subst member
  cases does with
  | wrote owner =>
    -- The node of the key is live all the time, so it is this one.
    obtain ⟨n, before, key⟩ := sound.toArena.of_find? owner
    obtain ⟨m, after, stays⟩ := grows.live _ n before
    have same := sound'.toArena.find? after
    rw [stays.key, key, hit, sound'.toArena.find? live] at same
    cases same
    rw [dead] at before
    cases before

/-- What acts do to a field of a node that they leave: it stays as it was, or holds what was written last. -/
theorem Performs.fieldAt (performs : Performs acts g g') (formed : Formed g)
    (live : g'.node? j = some n') (inside : i < n'.fields.length) :
    Acts.lastWrite? n'.key i acts = none ∧ g'.fieldAt j i = g.fieldAt j i ∨
      ∃ w, Acts.lastWrite? n'.key i acts = some w ∧ w.IsIn g'.find? (g'.fieldAt j i) := by
  induction performs with
  | nil => exact Or.inl ⟨rfl, rfl⟩
  | @cons act acts g g₁ g' does others ih =>
    have formed₁ := formed.performs (.single does)
    have formed' := formed₁.performs others
    obtain ⟨-, grows₁, finds₁⟩ := (Performs.single does).sound formed.sound
    obtain ⟨-, grows₂, finds₂⟩ := others.sound formed₁.sound
    rw [← singleton_append, Acts.lastWrite?_append]
    rcases ih formed₁ live with ⟨unwritten, same⟩ | ⟨w, last, isIn⟩
    · -- The others leave the field as the first act does.
      rw [unwritten, same]
      cases before : g₁.node? j with
      | none =>
        have dead : g.node? j = none := by
          cases found : g.node? j with
          | none => rfl
          | some n =>
            obtain ⟨m, there, -⟩ := grows₁.live j n found
            rw [before] at there
            cases there
        refine Or.inl ⟨does.lastWrite?_eq_none formed.sound (grows₁.trans grows₂) formed'.sound live dead i, ?_⟩
        rw [fieldAt_of_dead before, fieldAt_of_dead dead]
      | some n₁ =>
        obtain ⟨m, there, stays⟩ := grows₂.live j n₁ before
        rw [live] at there
        cases there
        -- The node has as many fields as it will have.
        have inside₁ : i < n₁.fields.length := by
          rw [(formed₁.shaped j n₁ before).length, ← stays.layout, ← (formed'.shaped j n' live).length]
          exact inside
        rw [stays.key]
        rcases does.fieldAt formed.sound before inside₁ with kept | ⟨w, last, isIn⟩
        · exact Or.inl kept
        · exact Or.inr ⟨w, last, isIn.of_finds fun key c _ found => finds₂ key c (finds₁ key c found)⟩
    · exact Or.inr ⟨w, by rw [last]; rfl, isIn⟩

/-- Absorbing places fields by position. A field of a node that is left is as it was, if no record of the node's key
that is met declares one there. Otherwise it holds what one of these records declares there, which it has under the
schema's name for the position if its layout has that name there. -/
theorem Reachable.absorb_places {F : Formulas} {s : Schema} {g g' : Graph}
    (reached : Reachable F s g) {r : Record} {parentRoot : Option NodeId} {id : NodeId}
    (absorbed : absorb r parentRoot g = .ok id g') :
    (∀ n', g'.node? id = some n' → n'.key = r.key) ∧ ∀ (j : NodeId) (n' : Node) (i : Nat),
      g'.node? j = some n' → i < n'.fields.length →
      (g'.fieldAt j i = g.fieldAt j i ∧ ∀ r', .meet r' ∈ Acts.ofRecord g.schema r → r'.key = n'.key →
        ∀ w : Write, w.Of g.schema r' → w.position ≠ i) ∨
      ∃ (r' : Record) (w : Write), .meet r' ∈ Acts.ofRecord g.schema r ∧ r'.key = n'.key ∧ w.Of g.schema r' ∧
        w.position = i ∧ w.IsIn g'.find? (g'.fieldAt j i) ∧
        ∀ info info', (g.schema.fieldsOf r'.typeName)[i]? = some info → r'.layout.fields[i]? = some info' →
          r'.layout.Accepted → info'.name = info.name → w.field = r'.field info.name := by
  have formed := reached.formed
  have ends := absorb_traces formed.sound r parentRoot
  rw [Ends, absorbed] at ends
  obtain ⟨merged, performs, found, rfl⟩ := ends
  have formed' := formed.performs performs
  have forgot : Sound { merged with created := [] } := formed'.sound.quiet (.pending merged _ _ _)
  have swept := forgot.sweep
  -- What is left of the merged graph has its fields and keys.
  have before : ∀ j n', (sweep { merged with created := [] }).node? j = some n' →
      ∃ m, merged.node? j = some m ∧ n'.key = m.key ∧ n'.fields = m.fields := by
    intro j n' live
    have lone := swept.kept j ((swept.contains_iff j).mp (contains_iff.mpr ⟨n', live⟩)).2
    rw [live, Option.map_some, eq_comm, Option.map_eq_some_iff] at lone
    obtain ⟨m, there, same⟩ := lone
    obtain ⟨-, key, fields, -⟩ := same_of_lone (Or.inl same.symm)
    exact ⟨m, there, key, fields⟩
  refine ⟨fun n' live => ?_, fun j n' i live inside => ?_⟩
  · obtain ⟨m, there, key, -⟩ := before id n' live
    obtain ⟨_, there', key'⟩ := formed'.sound.toArena.of_find? found
    rw [there] at there'
    cases there'
    rw [key, key']
  · obtain ⟨m, there, key, fields⟩ := before j n' live
    have same : fieldAt (sweep { merged with created := [] }) j i = merged.fieldAt j i := by
      rw [fieldAt_of_live live, fieldAt_of_live there, fields]
    have tidy := Acts.tidy_ofRecord g.schema r
    rw [fields] at inside
    rw [key, same]
    rcases performs.fieldAt formed there inside with ⟨unwritten, kept⟩ | ⟨w, last, isIn⟩
    · refine Or.inl ⟨kept, fun r' met own w of position => ?_⟩
      have written := Acts.lastWrite?_ne_none (tidy.complete r' met w of)
      rw [of.key, own, position] at written
      exact written unwritten
    · obtain ⟨member, hit, position⟩ := of_lastWrite? last
      obtain ⟨r', met, of⟩ := tidy.sourced w member
      refine Or.inr ⟨r', w, met, of.key.symm.trans hit, of, position, ?_, ?_⟩
      · -- What the field links to is left as well.
        refine isIn.of_finds ((swept.findsAmong forgot live).mono fun c link => ?_)
        rw [fieldAt_of_live there, getElem?_eq_getElem inside, Option.getD_some] at link
        rw [Node.links, fields]
        exact Stored.mem_fieldLinks_of_mem (getElem_mem inside) link
      · intro info info' _ described accepted name
        have read := RecordOf.field_name accepted described
        rw [name, ← position, of.field, Option.getD_some] at read
        exact read.symm

/-- Sheets, with their sides in the given order. -/
def sheetType (sides : List FieldDecl) : TypeDecl :=
  ⟨"Sheet", none, ⟨"id", .text, 1, true, false, none, []⟩ :: sides⟩

def sheetDeclarations (sides : List FieldDecl) : Declarations :=
  ⟨[sheetType sides], [], []⟩

/-- The front of a sheet. -/
def sheetFront : FieldDecl :=
  ⟨"front", .text, 2, false, false, none, []⟩

/-- The back of a sheet. -/
def sheetBack : FieldDecl :=
  ⟨"back", .text, 3, false, false, none, []⟩

/-- The layout of sheets of one schema or the other. -/
def sheetLayout (serial : Nat) (sides : List FieldDecl) : Layout :=
  (sheetDeclarations sides).layout serial [] (sheetType sides) []

/-- The schema of a graph of sheets. -/
def sheetSchema : Schema :=
  ⟨0, [sheetLayout 0 [sheetFront, sheetBack]], [], []⟩

/-- Another schema of sheets, with the sides turned round. -/
def turnedSchema : Schema :=
  ⟨1, [sheetLayout 1 [sheetBack, sheetFront]], [], []⟩

theorem compile_sheet : Schema.compile 0 (sheetDeclarations [sheetFront, sheetBack]) = .ok sheetSchema := by
  decide +kernel

theorem compile_turned : Schema.compile 1 (sheetDeclarations [sheetBack, sheetFront]) = .ok turnedSchema := by
  decide +kernel

/-- A sheet of the other schema. -/
def turnedSheet : Record :=
  ⟨sheetLayout 1 [sheetBack, sheetFront], [.value (.text "k"), .value (.text "b"), .value (.text "f")]⟩

/-- The graph of that sheet alone. -/
def turnedGraph : Graph :=
  (absorb turnedSheet none).after (Graph.empty sheetSchema defaultRounds)

theorem absorb_turned : absorb turnedSheet none (Graph.empty sheetSchema defaultRounds) = .ok ⟨0, 0⟩ turnedGraph := by
  have run : (absorb turnedSheet none).run' (Graph.empty sheetSchema defaultRounds) = some ⟨0, 0⟩ := by decide +kernel
  exact eq_ok_of_run' run

/-- A sheet of the other schema comes in with its sides exchanged: at the place of the front stands the back. Its key
stands under its own name. -/
theorem absorb_places_turned :
    (∃ w : Write, w.field = turnedSheet.field "back" ∧ w.IsIn turnedGraph.find? (turnedGraph.fieldAt ⟨0, 0⟩ 1)) ∧
    ∃ w : Write, w.field = turnedSheet.field "id" ∧ w.IsIn turnedGraph.find? (turnedGraph.fieldAt ⟨0, 0⟩ 0) := by
  have size : (turnedGraph.node? ⟨0, 0⟩).map (fun n => n.fields.length) = some 3 := by decide +kernel
  obtain ⟨n, live, length⟩ := Option.map_eq_some_iff.mp size
  obtain ⟨key, placed⟩ :=
    Reachable.absorb_places (Reachable.empty defaultRounds : Reachable noFormulas sheetSchema _) absorb_turned
  -- The sheet is the only record that is met, and it declares a field at each position.
  have acts : Acts.ofRecord sheetSchema turnedSheet = [.meet turnedSheet,
      .write ⟨turnedSheet.key, 0, .value (.text "k"), false⟩, .write ⟨turnedSheet.key, 1, .value (.text "b"), false⟩,
      .write ⟨turnedSheet.key, 2, .value (.text "f"), false⟩] := by rfl
  have only : ∀ r', .meet r' ∈ Acts.ofRecord sheetSchema turnedSheet → r' = turnedSheet := by
    intro r' met
    simpa [acts] using met
  have each : ∀ i f, .write ⟨turnedSheet.key, i, f, false⟩ ∈ Acts.ofRecord sheetSchema turnedSheet → i < 3 →
      ∃ w : Write, w.field = f ∧ w.IsIn turnedGraph.find? (turnedGraph.fieldAt ⟨0, 0⟩ i) := by
    intro i f written inside
    obtain ⟨r', met, own⟩ := (Acts.tidy_ofRecord sheetSchema turnedSheet).sourced _ written
    cases only r' met
    rcases placed ⟨0, 0⟩ n i live (by omega) with ⟨-, unwritten⟩ | ⟨r', w, met', -, of, position, isIn, -⟩
    · exact absurd rfl (unwritten _ met (key n live).symm _ own)
    · cases only r' met'
      have there := of.field
      rw [position, own.field] at there
      exact ⟨w, (Option.some.inj there).symm, isIn⟩
  exact ⟨each 1 (.value (.text "b")) (by simp [acts]) (by decide),
    each 0 (.value (.text "k")) (by simp [acts]) (by decide)⟩

/-- Absorbing a record of another schema does not place its fields by name. -/
theorem not_absorb_places_by_name : ¬ ∀ (serial serial' : Nat) (d d' : Declarations)
    (s schema' : Schema) (F : Formulas) (g g' : Graph) (r : Record) (parentRoot : Option NodeId)
    (id : NodeId) (n : Node), Schema.compile serial d = .ok s →
    Schema.compile serial' d' = .ok schema' → schema'.ownsRecord r = true →
    Reachable F s g → absorb r parentRoot g = .ok id g' → g'.node? id = some n →
    ∀ i info, n.layout.fields[i]? = some info → info.isPure = false → info.mayLink = false →
      g'.fieldAt id i = g.fieldAt id i ∨
        Stored.sameField (g'.fieldAt id i) (Stored.plainField (r.field info.name)) = true := by
  intro named
  have layout : (turnedGraph.node? ⟨0, 0⟩).map (fun n => n.layout.fields[1]?) =
      some (some ⟨sheetFront, false, false⟩) := by decide +kernel
  obtain ⟨n, live, described⟩ := Option.map_eq_some_iff.mp layout
  rcases named 0 1 _ _ _ _ noFormulas _ _ turnedSheet none ⟨0, 0⟩ n compile_sheet compile_turned (by decide +kernel)
    (.empty defaultRounds) absorb_turned live 1 _ described rfl rfl with kept | same
  · -- The front of the sheet is new.
    have before : (fieldAt (Graph.empty sheetSchema defaultRounds) ⟨0, 0⟩ 1).isDeclared = false := by decide +kernel
    have after : (turnedGraph.fieldAt ⟨0, 0⟩ 1).isDeclared = true := by decide +kernel
    rw [kept, before] at after
    cases after
  · have differs : Stored.sameField (turnedGraph.fieldAt ⟨0, 0⟩ 1) (Stored.plainField (turnedSheet.field "front")) =
        false := by decide +kernel
    rw [show (⟨sheetFront, false, false⟩ : FieldInfo).name = "front" from rfl, differs] at same
    cases same

end EntityGraph.Graph
