import EntityGraph.Proofs.Record.Deriving
import EntityGraph.Proofs.Schema.Derivations
import EntityGraph.Proofs.Schema.References

/-! Building a record solves the equations of its pure derivations: each field has what its derivation computes from the
record, and the solution does not depend on the order in which derivations run. -/

namespace EntityGraph

open List

variable {d : Derivation} {name : String} {f : FieldInfo}

/-- The formulas of a layout read their declared inputs only. -/
def Formulas.ReadInputs (F : Formulas) (l : Layout) : Prop :=
  ∀ f ∈ l.fields, ∀ inputs formula, f.derivation = some (.computed inputs formula) →
    ∀ read read' : String → Field Value, (∀ name ∈ inputs, read name = read' name) →
      F.pure formula read = F.pure formula read'

/-- An order in which each pure derivation of a layout runs once, after the others that it reads. -/
structure Layout.Orders (l : Layout) (order : List Nat) : Prop where
  once : order.Nodup
  members : ∀ i, i ∈ order ↔ ∃ f, l.fields[i]? = some f ∧ f.isPure = true
  after : ∀ before i later, order = before ++ i :: later → ∀ f, l.fields[i]? = some f → ∀ name ∈ f.inputs,
    ∀ j, l.indexOf? name = some j → j ≠ i → ∀ g, l.fields[j]? = some g → g.isPure = true → j ∈ before

/-- The order of an accepted layout is such an order. -/
theorem Schema.orders_of_type? {serial : Nat} {d : Declarations} {s : Schema} (compiled : compile serial d = .ok s)
    {l : Layout} (found : s.type? name = some l) : l.Orders l.deriveOrder := by
  have accepted := accepted_of_type? compiled found
  obtain ⟨t, rules, order, -, checked, rfl⟩ := declared_of_type? compiled found
  have scheduled := Declarations.schedules_of_deriveOrder (Declarations.deriveOrder_of_checkType checked)
  exact ⟨scheduled.once, accepted.derived, accepted.after⟩

/-- A derivation computes the same from the same inputs. -/
theorem Formulas.ReadInputs.evaluate?_eq {F : Formulas} {l : Layout} (readInputs : F.ReadInputs l)
    (member : f ∈ l.fields) (derives : f.derivation = some d) {read read' : String → Field Value}
    (same : ∀ name ∈ f.inputs, read name = read' name) : d.evaluate? F read = d.evaluate? F read' := by
  rw [FieldDecl.inputs, derives] at same
  cases d with
  | firstOf sources =>
    have sources : sources.map read = sources.map read' := map_congr_left same
    rw [Derivation.evaluate?, Derivation.evaluate?, sources]
  | computed inputs formula =>
    rw [Derivation.evaluate?, Derivation.evaluate?, readInputs f member inputs formula derives read read' same]
  | contextual formula => rfl

namespace RecordOf

variable {F : Formulas} {l : Layout} {r r' prior : Record} {order : List Nat}

/-- What the derivation at a position reads: the fields of a record, and of its own field the prior value. -/
def readAt (prior r : Record) (i : Nat) (name : String) : Field Value :=
  if r.layout.indexOf? name = some i then prior.field name else r.field name

/-- The record has the prior values where nothing is derived, and elsewhere what derivations compute from the record
itself. One that reads its own field sees the prior value. -/
structure Solves (F : Formulas) (prior r : Record) : Prop where
  layout : r.layout = prior.layout
  length : r.fields.length = prior.fields.length
  kept : ∀ (i : Nat) (f : FieldInfo), prior.layout.fields[i]? = some f → f.isPure = false →
    r.fields[i]? = prior.fields[i]?
  derived : ∀ (i : Nat) (f : FieldInfo) (d : Derivation), prior.layout.fields[i]? = some f → f.derivation = some d →
    d.isPure = true → r.fields[i]? = d.evaluate? F (readAt prior r i)

theorem field_eq (layout : r'.layout = r.layout)
    (same : ∀ i, r.layout.indexOf? name = some i → r'.fields[i]? = r.fields[i]?) : r'.field name = r.field name := by
  unfold field
  rw [layout]
  cases found : r.layout.indexOf? name with
  | none => rfl
  | some i => simp only [same i found]

/-- Running the derivations in an order that respects what they read solves their equations. -/
theorem solves_foldl {r : SizedRecord} (readInputs : F.ReadInputs r.layout) (ordered : r.layout.Orders order) :
    Solves F r (order.foldl (deriveAt F) r) := by
  have whole := differs_foldl_deriveAt F r order
  refine ⟨whole.layout, whole.length, fun i f found impure => whole.fields i fun member => ?_,
    fun i f d found derives pure => ?_⟩
  · obtain ⟨g, found', pure⟩ := (ordered.members i).mp member
    rw [found] at found'
    cases found'
    rw [impure] at pure
    cases pure
  · have isPure : f.isPure = true := by rw [FieldDecl.isPure, derives]; exact pure
    obtain ⟨before, later, rfl, new⟩ := eq_append_cons_of_mem ((ordered.members i).mpr ⟨f, found, isPure⟩)
    have last : i ∉ later := (nodup_cons.mp (nodup_append.mp ordered.once).2.1).1
    -- An input that is read is not written any more, unless it is the field itself.
    have settled : ∀ name ∈ f.inputs, ∀ j, r.layout.indexOf? name = some j → j ≠ i → j ∉ i :: later := by
      intro name input j named other member
      obtain ⟨g, there, derived⟩ := (ordered.members j).mp (mem_append_right _ member)
      have earlier := ordered.after before i later rfl f found name input j named other g there derived
      exact (nodup_append.mp ordered.once).2.2 j earlier j member rfl
    have early := differs_foldl_deriveAt F r before
    rw [foldl_append]
    generalize before.foldl (deriveAt F) r = middle at early ⊢
    have late := differs_foldl_deriveAt F middle (i :: later)
    have inside := (List.getElem?_eq_some_iff.mp found).1
    rw [foldl_cons] at late ⊢
    rw [(differs_foldl_deriveAt F _ later).fields i last,
      getElem?_deriveAt (early.layout ▸ found) derives pure (by rw [early.length, r.sized]; exact inside)]
    refine readInputs.evaluate?_eq (mem_of_getElem? found) derives fun name input => ?_
    rw [readAt, late.layout, early.layout]
    split
    · rename_i own
      refine field_eq early.layout fun j named => early.fields j ?_
      rw [own] at named
      cases named
      exact new
    · rename_i other
      refine (field_eq late.layout fun j named => late.fields j ?_).symm
      rw [early.layout] at named
      exact settled name input j named fun same => other (same ▸ named)

/-- There is one solution: fields that are derived later depend on fields that are the same already. -/
theorem Solves.unique {prior : SizedRecord} (readInputs : F.ReadInputs prior.layout)
    (ordered : prior.layout.Orders order) (solves : Solves F prior r) (solves' : Solves F prior r') : r' = r := by
  have layout : r'.layout = r.layout := solves'.layout.trans solves.layout.symm
  have kept : ∀ i, i ∉ order → r'.fields[i]? = r.fields[i]? := by
    intro i other
    cases found : prior.layout.fields[i]? with
    | none =>
      have outside := List.getElem?_eq_none_iff.mp found
      rw [getElem?_eq_none (by rw [solves'.length, prior.sized]; exact outside),
        getElem?_eq_none (by rw [solves.length, prior.sized]; exact outside)]
    | some f =>
      have impure : f.isPure = false := by
        simpa using fun pure => other ((ordered.members i).mpr ⟨f, found, pure⟩)
      rw [solves.kept i f found impure, solves'.kept i f found impure]
  -- By induction on the part of the order that is done.
  have each : ∀ before later, order = before ++ later → ∀ i ∈ before, r'.fields[i]? = r.fields[i]? := by
    intro before
    induction before using List.reverseRecOn with
    | nil => simp
    | append_singleton before i ih =>
      intro later split j member
      rw [append_assoc] at split
      rcases mem_append.mp member with earlier | here
      · exact ih _ split j earlier
      obtain rfl : j = i := by simpa using here
      obtain ⟨f, found, pure⟩ := (ordered.members j).mp (by simp [split])
      obtain ⟨d, derives, pure⟩ := FieldDecl.exists_derivation pure
      rw [solves.derived j f d found derives pure, solves'.derived j f d found derives pure]
      refine readInputs.evaluate?_eq (mem_of_getElem? found) derives fun name input => ?_
      rw [readAt, readAt, layout]
      split
      · rfl
      · rename_i other
        refine field_eq layout fun k named => ?_
        by_cases derived : k ∈ order
        · obtain ⟨g, there, pure⟩ := (ordered.members k).mp derived
          rw [solves.layout] at named other
          exact ih _ split k (ordered.after before j later split f found name input k named
            (fun same => other (same ▸ named)) g there pure)
        · exact kept k derived
  rcases r with ⟨_, fields⟩
  rcases r' with ⟨_, fields'⟩
  cases layout
  congr 1
  refine ext_getElem? fun i => ?_
  by_cases derived : i ∈ order
  · exact each order [] (by simp) i derived
  · exact kept i derived

/-- A derivation that does not read itself sees the record as it is, whatever was there before. -/
theorem Solves.fixed (readInputs : F.ReadInputs prior.layout) (solves : Solves F prior r) {i : Nat}
    (found : prior.layout.fields[i]? = some f) (derives : f.derivation = some d) (pure : d.isPure = true)
    (steady : f.readsItself = false) : r.fields[i]? = d.evaluate? F r.field := by
  rw [solves.derived i f d found derives pure]
  refine readInputs.evaluate?_eq (mem_of_getElem? found) derives fun name input => if_neg fun own => ?_
  -- A name at the position of the field is the field's own.
  rw [solves.layout] at own
  obtain ⟨g, there, rfl⟩ := Layout.of_indexOf? own
  rw [found] at there
  cases there
  simp [FieldDecl.readsItself, input] at steady

end RecordOf

/-- A record that is built is a fixed point of its derivations. Every pure derivation that does not read itself computes
what the record has, and all else is as the draft had it. Where none reads itself, building again changes nothing. Any
order in which each derivation runs once, after the others that it reads, gives the same record. -/
theorem Draft.build_fixedPoint {serial : Nat} {d : Declarations} {s : Schema}
    (compiled : Schema.compile serial d = .ok s) {name : String} {draft : Draft}
    (found : s.type? name = some draft.layout) {F : Formulas}
    (readInputs : F.ReadInputs draft.layout) :
    (∀ (i : Nat) (f : FieldInfo) (derivation : Derivation), draft.layout.fields[i]? = some f →
      f.derivation = some derivation → derivation.isPure = true → f.readsItself = false →
        ∃ value, derivation.evaluate? F (draft.build F).field = some value ∧
          (draft.build F).fields[i]? = some value) ∧
    (∀ (i : Nat) (f : FieldInfo), draft.layout.fields[i]? = some f → f.isPure = false →
      (draft.build F).fields[i]? = draft.fields[i]?) ∧
    ((∀ f ∈ draft.layout.fields, f.readsItself = false) →
      (Draft.ofRecord (draft.build F)).build F = draft.build F) ∧
    ∀ order, draft.layout.Orders order →
      order.foldl (RecordOf.deriveAt F) draft.raw = draft.build F := by
  have ordered := Schema.orders_of_type? compiled found
  have solves : RecordOf.Solves F draft.toSizedRecord (draft.build F) :=
    RecordOf.solves_foldl readInputs ordered
  refine ⟨fun i f derivation there derives pure steady => ?_, fun i f there impure => solves.kept i f there impure,
    fun steady => ?_, fun order other => ?_⟩
  · obtain ⟨value, computed⟩ := Derivation.exists_evaluate? pure F (draft.build F).field
    exact ⟨value, computed, (solves.fixed readInputs there derives pure steady).trans computed⟩
  · have sized : (draft.build F).fields.length = (draft.build F).layout.fields.length := by
      rw [solves.length, solves.layout]
      exact draft.sized
    let built : SizedRecord := ⟨draft.build F, sized⟩
    -- The record solves the equations with itself as what was there before, too.
    have again : RecordOf.Solves F built built := by
      refine ⟨rfl, rfl, fun _ _ _ _ => rfl, fun i f derivation there derives pure => ?_⟩
      have same : RecordOf.readAt built built i = built.field := funext fun _ => ite_self _
      rw [solves.layout] at there
      rw [same]
      exact solves.fixed readInputs there derives pure (steady f (mem_of_getElem? there))
    rw [← show built.layout = draft.layout from solves.layout] at readInputs ordered
    rw [build, Draft.raw_ofRecord built]
    exact again.unique readInputs ordered (RecordOf.solves_foldl readInputs ordered)
  · exact solves.unique readInputs ordered (RecordOf.solves_foldl readInputs other)

namespace Crates

/-- Crates have a width. Their span copies the area, which is declared behind it and copies the width. -/
def crateType : TypeDecl :=
  ⟨"Crate", none, [⟨"width", .int, 1, false, false, none, []⟩,
    ⟨"span", .int, 2, false, false, some (.computed ["area"] "area"), []⟩,
    ⟨"area", .int, 3, false, false, some (.computed ["width"] "width"), []⟩,
    ⟨"label", .int, 4, false, false, some (.firstOf ["span", "width"]), []⟩]⟩

def declarations : Declarations := ⟨[crateType], [], []⟩

/-- The area is derived first. -/
def crateLayout : Layout := declarations.layout 0 [] crateType [2, 1, 3]

theorem compile_crate : Schema.compile 0 declarations = .ok ⟨0, [crateLayout], [], []⟩ := by decide +kernel

/-- Formulas that copy the field that they are named after. -/
def copying : Formulas := ⟨fun source read => read source, fun _ _ => .absent⟩

theorem readInputs_copying : copying.ReadInputs crateLayout := by
  intro f member inputs formula derives read read' same
  simp only [crateLayout, Declarations.layout, declarations, crateType, List.map, mem_cons, not_mem_nil,
    or_false] at member
  rcases member with rfl | rfl | rfl | rfl <;> cases derives
  all_goals exact same _ mem_cons_self

/-- A crate of which only the width is known. -/
def draft : Draft := ⟨⟨crateLayout, [.value (.int 3), .absent, .null, .absent]⟩, rfl⟩

end Crates

/-- Area, span and label have the width of the crate, and building it again changes nothing. -/
theorem Draft.build_fixedPoint_crate :
    (Crates.draft.build Crates.copying).fields = List.replicate 4 (.value (.int 3)) ∧
      (Draft.ofRecord (Crates.draft.build Crates.copying)).build Crates.copying =
        Crates.draft.build Crates.copying :=
  have found : Schema.type? ⟨0, [Crates.crateLayout], [], []⟩ "Crate" = some Crates.draft.layout := rfl
  ⟨rfl, (build_fixedPoint Crates.compile_crate found Crates.readInputs_copying).2.2.1 (by decide)⟩

end EntityGraph
