import Mathlib.Data.List.Forall2

/-! Checks that succeed have succeeded at every step. -/

namespace EntityGraph.Except

open List

variable {ε α β : Type} {items : List α} {x : Except ε α} {f : α → Except ε β} {γ : Type}

theorem bind_eq_ok {b : β} : (x >>= f) = .ok b ↔ ∃ a, x = .ok a ∧ f a = .ok b := by
  cases x with
  | error e => simp [bind, Except.bind]
  | ok a => simp [bind, Except.bind]

theorem map_eq_ok {f : α → β} {b : β} : x.map f = .ok b ↔ ∃ a, x = .ok a ∧ f a = b := by
  cases x with
  | error e => simp [Except.map]
  | ok a => simp [Except.map]

theorem of_mapError_eq_ok {ε' : Type} {f : ε → ε'} {a : α} (ok : x.mapError f = .ok a) : x = .ok a := by
  cases x with
  | error e => cases ok
  | ok b => cases ok; rfl

/-- A check of every element succeeds only if it succeeds on each of them. -/
theorem of_forM_eq_ok {f : α → Except ε Unit} (ran : items.forM f = .ok ()) : ∀ a ∈ items, f a = .ok () := by
  induction items with
  | nil => simp
  | cons a rest ih =>
    -- The check of the head went through, and so did those behind it.
    rw [forM_eq_forM, forM_cons] at ran
    obtain ⟨_, first, others⟩ := bind_eq_ok.mp ran
    intro b member
    rcases mem_cons.mp member with rfl | later
    · exact first
    · exact ih others b later

/-- The results are those of the elements, in their order. -/
theorem forall₂_of_mapM_eq_ok {results : List β} (ran : items.mapM f = .ok results) :
    List.Forall₂ (fun a b => f a = .ok b) items results := by
  induction items generalizing results with
  | nil =>
    cases ran
    exact .nil
  | cons a rest ih =>
    rw [mapM_cons] at ran
    obtain ⟨b, first, others⟩ := bind_eq_ok.mp ran
    obtain ⟨bs, later, same⟩ := bind_eq_ok.mp others
    cases same
    exact .cons first (ih later)

/-- If every element has a result, all of them have. -/
theorem exists_mapM_eq_ok (each : ∀ a ∈ items, ∃ b, f a = .ok b) : ∃ results, items.mapM f = .ok results := by
  induction items with
  | nil => exact ⟨[], rfl⟩
  | cons a rest ih =>
    obtain ⟨b, first⟩ := each a mem_cons_self
    obtain ⟨bs, others⟩ := ih fun c later => each c (.tail _ later)
    refine ⟨b :: bs, ?_⟩
    rw [mapM_cons, first, others]
    rfl

/-- Lists that are mapped alike element by element are mapped alike. -/
theorem mapM_congr {f : α → Except ε γ} {g : β → Except ε γ} {items' : List β}
    (each : List.Forall₂ (fun a b => f a = g b) items items') : items.mapM f = items'.mapM g := by
  induction each with
  | nil => rfl
  | cons first _ ih => rw [mapM_cons, mapM_cons, first, ih]

/-- Elements that give what others gave one by one give it together. -/
theorem mapM_ok_of_forall₂ {f : α → Except ε γ} {g : β → Except ε γ} {items' : List β} {results : List γ}
    (each : List.Forall₂ (fun a b => ∀ c, f a = .ok c → g b = .ok c) items items') (ran : items.mapM f = .ok results) :
    items'.mapM g = .ok results := by
  induction each generalizing results with
  | nil => exact ran
  | cons first _ ih =>
    rw [mapM_cons] at ran ⊢
    obtain ⟨c, here, others⟩ := bind_eq_ok.mp ran
    obtain ⟨cs, later, same⟩ := bind_eq_ok.mp others
    cases same
    rw [first c here, ih later]
    rfl

section error

variable {e : ε}

theorem bind_ne_error (first : x ≠ .error e) (each : ∀ a, f a ≠ .error e) : (x >>= f) ≠ .error e := by
  cases x with
  | error e' => exact fun failed => first (by cases failed; rfl)
  | ok a => exact each a

/-- An error that no element gives is not given by all of them together. -/
theorem mapM_ne_error (each : ∀ a ∈ items, f a ≠ .error e) : items.mapM f ≠ .error e := by
  induction items with
  | nil => exact fun failed => by cases failed
  | cons a rest ih =>
    rw [mapM_cons]
    have others := ih fun b later => each b (.tail _ later)
    exact bind_ne_error (each a mem_cons_self) fun b => bind_ne_error others fun bs failed => by cases failed

theorem forM_ne_error {f : α → Except ε Unit} (each : ∀ a, f a ≠ .error e) (items : List α) :
    items.forM f ≠ .error e := by
  induction items with
  | nil => exact fun failed => by cases failed
  | cons a rest ih =>
    rw [forM_eq_forM, forM_cons]
    exact bind_ne_error (each a) fun _ => ih

end error

theorem exists_of_isOk (ok : x.isOk = true) : ∃ a, x = .ok a := by
  cases x with
  | error e => cases ok
  | ok a => exact ⟨a, rfl⟩

end EntityGraph.Except

namespace EntityGraph.EStateM

theorem bind_eq_ok {ε σ α β : Type} {x : EStateM ε σ α} {f : α → EStateM ε σ β} {s s' : σ} {b : β} :
    (x >>= f) s = .ok b s' ↔ ∃ a t, x s = .ok a t ∧ f a t = .ok b s' := by
  simp only [Bind.bind, EStateM.bind]
  cases x s with
  | ok a t => simp
  | error e t => simp

end EntityGraph.EStateM
