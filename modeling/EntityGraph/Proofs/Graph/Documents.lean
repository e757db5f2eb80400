import EntityGraph.Proofs.Graph.Own
import EntityGraph.Proofs.Graph.Typed
import EntityGraph.Proofs.Record.Identity

/-! Documents of stored values: where links stand for the entities that were stored, a stored value has the document of
the value that it was made from. -/

namespace EntityGraph

open List

variable {st : Stored}

namespace Stored

mutual

/-- No part in a stored value is of a type with pure derivations, so that nothing in it is derived when it is built. -/
def underived : Stored → Bool
  | .list items => areUnderivedItems items
  | .map entries => areUnderivedEntries entries
  | .inline r => isUnderivedRecord r
  | _ => true

/-- Nothing in the elements of a stored list is derived. -/
def areUnderivedItems : List (Option Stored) → Bool
  | [] => true
  | some st :: rest => underived st && areUnderivedItems rest
  | none :: rest => areUnderivedItems rest

/-- Nothing in the entries of a stored map is. -/
def areUnderivedEntries : List (String × Option Stored) → Bool
  | [] => true
  | (_, some st) :: rest => underived st && areUnderivedEntries rest
  | (_, none) :: rest => areUnderivedEntries rest

/-- Nothing in a stored record is. -/
def isUnderivedRecord : RecordOf Stored → Bool
  | ⟨layout, fields⟩ => layout.deriveOrder.isEmpty && areUnderivedFields fields

/-- Nothing in stored fields is. -/
def areUnderivedFields : List (Field Stored) → Bool
  | [] => true
  | .value st :: rest => underived st && areUnderivedFields rest
  | .null :: rest => areUnderivedFields rest
  | .absent :: rest => areUnderivedFields rest

end

theorem underived_inner (underived : st.underived = true) : ∀ t ∈ st.inner, t.underived = true := by
  cases st with
  | list items =>
    rw [Stored.underived] at underived
    induction items with
    | nil => simp [inner]
    | cons item rest ih => cases item <;> simp_all [inner, areUnderivedItems]
  | map entries =>
    rw [Stored.underived] at underived
    induction entries with
    | nil => simp [inner]
    | cons e rest ih =>
      rcases e with ⟨k, _ | st⟩
      · exact ih underived
      · rw [areUnderivedEntries, Bool.and_eq_true] at underived
        exact forall_mem_cons.mpr ⟨underived.1, ih underived.2⟩
  | inline r =>
    rcases r with ⟨layout, fields⟩
    rw [Stored.underived, isUnderivedRecord, Bool.and_eq_true] at underived
    replace underived := underived.2
    induction fields with
    | nil => simp [inner]
    | cons f rest ih =>
      cases f with
      | value st =>
        rw [areUnderivedFields, Bool.and_eq_true] at underived
        exact forall_mem_cons.mpr ⟨underived.1, ih underived.2⟩
      | _ => exact ih underived
  | _ => simp [inner]

end Stored

/-- A layout without pure derivations has no field that is one. -/
theorem Layout.Accepted.isPure_eq_false {l : Layout} (accepted : l.Accepted) (none : l.deriveOrder.isEmpty = true) :
    ∀ info ∈ l.fields, info.isPure = false := by
  intro info member
  obtain ⟨i, there⟩ := mem_iff_getElem?.mp member
  -- The order of derivations has every pure field in it.
  by_contra pure
  have listed := (accepted.derived i).mpr ⟨info, there, by simpa using pure⟩
  rw [List.isEmpty_iff.mp none] at listed
  cases listed

section document

variable {s : Schema} {known : Record → Prop} {find : Key → Option NodeId} {records : NodeId → Record}

/-- The record that a link stands for has the document of every known entity that is found there. -/
def StandsFor (known : Record → Prop) (find : Key → Option NodeId) (records : NodeId → Record) (c : NodeId) : Prop :=
  ∀ b, known b → b.layout.identifiable = true → find b.key = some c → ∀ kind,
    Emit.value true (Identity.ofValue (.record (records c))) kind =
      Emit.value true (Identity.ofValue (.record b)) kind

/-- A part has the document of the record that it was made from, if its values have. -/
theorem Stored.document_expand_part {layout : Layout} {fields : List (Field Value)} (accepted : s.Accepted)
    (F : Formulas) (anonymous : layout.identifiable = false) (own : s.ownsRecord ⟨layout, fields⟩ = true)
    (stored : Stored.ofValue? find (.record ⟨layout, fields⟩) = some st) (underived : st.underived = true)
    (inside : ∀ w ∈ (Value.record ⟨layout, fields⟩).inner, ∀ t ∈ st.inner, Stored.ofValue? find w = some t →
      Identity.SameDocument w (t.expand F records)) :
    Identity.SameDocument (.record ⟨layout, fields⟩) (st.expand F records) := by
  intro kind
  rcases Stored.of_ofValue?_record anonymous stored with ⟨holds, parts, found, rfl⟩ | ⟨-, rfl⟩
  · obtain ⟨type, sized, -⟩ := Schema.ownsRecord_iff.mp own
    dsimp only at sized
    rw [Stored.underived, Stored.isUnderivedRecord, Bool.and_eq_true] at underived
    have given := (accepted _ _ type).isPure_eq_false underived.1
    -- Nothing is derived, so the part is built of its fields alone.
    have built : Stored.expandRecord F records ⟨layout, parts⟩ =
        ⟨layout, Stored.expandFields F records parts⟩ := by
      rw [Stored.expandRecord, RecordOf.derive, List.isEmpty_iff.mp underived.1]
      rfl
    rw [Stored.ofFields?_eq, mapM_eq_some_iff] at found
    have each : List.Forall₂ (Field.Rel Identity.SameDocument) fields
        (Stored.expandFields F records parts) := by
      rw [Stored.expandFields_eq, forall₂_map_right_iff, ← map_fst_zip (Nat.le_of_eq sized),
        forall₂_map_left_iff]
      refine forall₂_imp_mem found fun e f here there image => ?_
      have pure := given e.2 (of_mem_zip here).2
      rcases e with ⟨_ | _ | w, info⟩ <;>
        simp only [Stored.ofField?, pure, Bool.false_eq_true, if_false, Option.some.injEq] at image
      case value =>
        obtain ⟨t, stored, rfl⟩ := Option.map_eq_some_iff.mp image
        refine .value (inside w ?_ t (mem_filterMap.mpr ⟨_, there, rfl⟩) stored)
        simp only [Value.inner, holds, if_true]
        exact mem_filterMap.mpr ⟨_, here, by simp [pure, Field.value?]⟩
      case null =>
        subst image
        exact .null
      case absent =>
        subst image
        exact .absent
    simp only [Stored.expand, built, Identity.ofValue, Identity.ofRecord, Emit.value_record, anonymous]
    rw [Identity.fieldMembers_eq_of_forall₂ each]
  · rw [Stored.expand]

/-- A stored value has the document of the value that it was made from. -/
theorem Stored.document_expand (accepted : s.Accepted) (F : Formulas) (v : Value) (own : s.owns v = true)
    (met : ∀ act ∈ Acts.ofValue s v, act.Knows known) (stored : Stored.ofValue? find v = some st)
    (underived : st.underived = true) (stand : ∀ c ∈ st.links, StandsFor known find records c) :
    Identity.SameDocument v (st.expand F records) := by
  induction v using Value.induct_inner generalizing st with
  | node r identifiable _ =>
    -- An entity is stored as a link, and the record behind the link stands for it.
    simp only [Stored.ofValue?, identifiable, if_true, Option.map_eq_some_iff] at stored
    obtain ⟨c, found, rfl⟩ := stored
    have given : known r := met (.meet r) (by simp [Acts.ofValue, identifiable, Acts.ofRecord_eq])
    rw [Stored.expand]
    exact fun kind => (stand c (by simp [Stored.links]) r given identifiable found kind).symm
  | rest v part ih =>
    obtain ⟨-, linked⟩ := Stored.inner_ofValue? part stored
    have inside : ∀ w ∈ v.inner, ∀ t ∈ st.inner, Stored.ofValue? find w = some t →
        Identity.SameDocument w (t.expand F records) := by
      intro w here t there image
      refine ih w here (Schema.owns_inner own w here) (fun act member => met act ?_) image
        (Stored.underived_inner underived t there) fun c link => stand c ((linked c).mpr ⟨t, there, link⟩)
      rw [Acts.ofValue_eq s part]
      exact mem_flatMap.mpr ⟨w, here, member⟩
    intro kind
    cases v with
    | record r =>
      rcases r with ⟨layout, fields⟩
      have anonymous : layout.identifiable = false := part
      exact Stored.document_expand_part accepted F anonymous own stored underived inside kind
    | list items =>
      rw [Stored.ofValue?] at stored
      obtain ⟨parts, found, rfl⟩ := Option.map_eq_some_iff.mp stored
      rw [Stored.ofItems?_eq, mapM_eq_some_iff] at found
      simp only [Stored.expand, Identity.ofValue, Emit.value]
      rw [Stored.expandItems_eq, Identity.itemDocuments_eq (forall₂_map_right_iff.mpr
        (forall₂_imp_mem found fun item part here there image => ?_))]
      cases Stored.rel_ofItem? image with
      | none => exact .none
      | @some w t stored =>
        exact .some (inside w (mem_filterMap.mpr ⟨_, here, rfl⟩) t (mem_filterMap.mpr ⟨_, there, rfl⟩) stored)
    | map entries =>
      rw [Stored.ofValue?] at stored
      obtain ⟨parts, found, rfl⟩ := Option.map_eq_some_iff.mp stored
      rw [Stored.ofEntries?_eq, mapM_eq_some_iff] at found
      simp only [Stored.expand, Identity.ofValue, Emit.value]
      rw [Stored.expandEntries_eq, Identity.entryMembers_eq (forall₂_map_right_iff.mpr
        (forall₂_imp_mem found fun e part here there image => ?_))]
      rcases e with ⟨k, item⟩
      obtain ⟨part, held, rfl⟩ := Option.map_eq_some_iff.mp image
      refine .mk k ?_
      cases Stored.rel_ofItem? held with
      | none => exact .none
      | @some w t stored =>
        exact .some (inside w (mem_filterMap.mpr ⟨_, here, rfl⟩) t (mem_filterMap.mpr ⟨_, there, rfl⟩) stored)
    | _ =>
      -- Everything else is stored as it is.
      simp only [Stored.ofValue?, Option.some.injEq] at stored
      rw [← stored, Stored.expand]

end document

end EntityGraph
