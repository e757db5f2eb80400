import EntityGraph.Json.TokenTree
import EntityGraph.Proofs.Ordered
import EntityGraph.Record.Basic

/-! Induction on values, documents and tokens, and relations between what values are made of. -/

namespace EntityGraph

open List

/-- Neither a record nor a collection. -/
def Value.isScalar : Value → Bool
  | .record _ | .list _ | .map _ => false
  | _ => true

/-- What holds of a value as soon as it holds of the values right inside it holds of every value. -/
@[elab_as_elim]
theorem Value.induct {P : Value → Prop} (scalar : ∀ v : Value, v.isScalar = true → P v)
    (record : ∀ r : Record, (∀ v, .value v ∈ r.fields → P v) → P (.record r))
    (list : ∀ items, (∀ v, some v ∈ items → P v) → P (.list items))
    (map : ∀ entries, (∀ k v, (k, some v) ∈ entries → P v) → P (.map entries)) : (v : Value) → P v
  | .record ⟨layout, fields⟩ => record ⟨layout, fields⟩ fun v _ => induct scalar record list map v
  | .list items => list items fun v _ => induct scalar record list map v
  | .map entries => map entries fun _ v _ => induct scalar record list map v
  | .bool b => scalar (.bool b) rfl
  | .int n => scalar (.int n) rfl
  | .double x => scalar (.double x) rfl
  | .text s => scalar (.text s) rfl
  | .enum e => scalar (.enum e) rfl
  | .unknown u => scalar (.unknown u) rfl
termination_by v => sizeOf v
decreasing_by
  all_goals
    have smaller := sizeOf_lt_of_mem ‹_ ∈ _›
    simp at smaller ⊢
    omega

/-- Neither an array nor an object. -/
def Json.isScalar : Json → Bool
  | .array _ | .object _ => false
  | _ => true

/-- What holds of a document as soon as it holds of those right inside it holds of every document. -/
@[elab_as_elim]
theorem Json.induct {P : Json → Prop} (scalar : ∀ j : Json, j.isScalar = true → P j)
    (array : ∀ items, (∀ j ∈ items, P j) → P (.array items))
    (object : ∀ members, (∀ k j, (k, j) ∈ members → P j) → P (.object members)) : (j : Json) → P j
  | .array items => array items fun j _ => induct scalar array object j
  | .object members => object members fun _ j _ => induct scalar array object j
  | .null => scalar .null rfl
  | .bool b => scalar (.bool b) rfl
  | .number n => scalar (.number n) rfl
  | .string s => scalar (.string s) rfl
termination_by j => sizeOf j
decreasing_by
  all_goals
    have smaller := sizeOf_lt_of_mem ‹_ ∈ _›
    simp at smaller ⊢
    omega

/-- What holds of tokens as soon as it holds of those right inside them holds of all tokens. -/
@[elab_as_elim]
theorem TokenTree.induct {P : TokenTree → Prop} (null : P .null) (bool : ∀ b, P (.bool b))
    (number : ∀ l, P (.number l)) (string : ∀ s, P (.string s))
    (array : ∀ items closed, (∀ t ∈ items, P t) → P (.array items closed))
    (object : ∀ members closed, (∀ k t, (k, t) ∈ members → P t) → P (.object members closed)) : (t : TokenTree) → P t
  | .null => null
  | .bool b => bool b
  | .number l => number l
  | .string s => string s
  | .array items closed => array items closed fun t _ => induct null bool number string array object t
  | .object members closed => object members closed fun _ t _ => induct null bool number string array object t
termination_by t => sizeOf t
decreasing_by
  all_goals
    have smaller := sizeOf_lt_of_mem ‹_ ∈ _›
    simp at smaller ⊢
    omega

/-- Fields of the same presence, with related values. -/
inductive Field.Rel {α β : Type} (rel : α → β → Prop) : Field α → Field β → Prop where
  | absent : Rel rel .absent .absent
  | null : Rel rel .null .null
  | value {a : α} {b : β} (related : rel a b) : Rel rel (.value a) (.value b)

/-- Entries of the same key, with related values. -/
inductive Entries.Rel {α β : Type} (rel : α → β → Prop) : String × Option α → String × Option β → Prop where
  | mk (key : String) {a : Option α} {b : Option β} (related : Option.Rel rel a b) : Rel rel (key, a) (key, b)

theorem Entries.rel_iff {α β : Type} {rel : α → β → Prop} {e : String × Option α} {e' : String × Option β} :
    Entries.Rel rel e e' ↔ e.1 = e'.1 ∧ Option.Rel rel e.2 e'.2 := by
  constructor
  · rintro ⟨key, related⟩
    exact ⟨rfl, related⟩
  · rcases e with ⟨k, a⟩
    rcases e' with ⟨k', b⟩
    rintro ⟨same, related⟩
    obtain rfl : k = k' := same
    exact .mk k related

section Step

variable {rel rel' : Value → Value → Prop} {items items' : List (Option Value)}
  {entries entries' : List (String × Option Value)}

/-- Elements are related to themselves if their values are. -/
theorem items_refl (each : ∀ v, some v ∈ items → rel v v) : List.Forall₂ (Option.Rel rel) items items := by
  refine forall₂_same.mpr fun item member => ?_
  cases item with
  | none => exact .none
  | some v => exact .some (each v member)

/-- So are entries. -/
theorem entries_refl (each : ∀ k v, (k, some v) ∈ entries → rel v v) :
    List.Forall₂ (Entries.Rel rel) entries entries := by
  refine forall₂_same.mpr fun e member => ?_
  rcases e with ⟨k, _ | v⟩
  · exact .mk k .none
  · exact .mk k (.some (each k v member))

/-- A relation of elements may be weakened where they stand. -/
theorem items_imp (each : List.Forall₂ (Option.Rel rel) items items')
    (imp : ∀ v w, some v ∈ items → some w ∈ items' → rel v w → rel' v w) :
    List.Forall₂ (Option.Rel rel') items items' := by
  refine forall₂_imp_mem each fun a b here there related => ?_
  cases related with
  | none => exact .none
  | some related => exact .some (imp _ _ here there related)

/-- So may one of entries. -/
theorem entries_imp (each : List.Forall₂ (Entries.Rel rel) entries entries')
    (imp : ∀ k v w, (k, some v) ∈ entries → (k, some w) ∈ entries' → rel v w → rel' v w) :
    List.Forall₂ (Entries.Rel rel') entries entries' := by
  refine forall₂_imp_mem each fun a b here there related => ?_
  rcases related with ⟨k, related⟩
  cases related with
  | none => exact .mk k .none
  | some related => exact .mk k (.some (imp k _ _ here there related))

theorem isSome_of_forall₂ (each : List.Forall₂ (Option.Rel rel) items items') :
    items.map Option.isSome = items'.map Option.isSome := by
  rw [← forall₂_eq_eq_eq, forall₂_map_left_iff, forall₂_map_right_iff]
  refine each.imp fun a b related => ?_
  cases related <;> rfl

theorem isSome_of_forall₂_entries (each : List.Forall₂ (Entries.Rel rel) entries entries') :
    (entries.map fun e => e.2.isSome) = entries'.map fun e => e.2.isSome := by
  rw [← forall₂_eq_eq_eq, forall₂_map_left_iff, forall₂_map_right_iff]
  refine each.imp fun a b related => ?_
  rcases related with ⟨key, related⟩
  cases related <;> rfl

end Step

end EntityGraph
