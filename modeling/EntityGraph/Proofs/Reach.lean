import EntityGraph.Reach
import Mathlib.Logic.Relation

/-! The depth-first search finds exactly what is reachable, if its fuel exceeds the length of every path. -/

namespace EntityGraph.Reach

open List

open Relation

variable {α : Type} [DecidableEq α] {next : α → List α} {valid : α → Prop}

/-- What searches from some vertices add to what was seen: the vertices and others reachable from them, with everything
that the new ones lead to. -/
structure Visited (next : α → List α) (xs seen seen' : List α) : Prop where
  kept : ∀ y ∈ seen, y ∈ seen'
  here : ∀ x ∈ xs, x ∈ seen'
  reached : ∀ y ∈ seen', y ∈ seen ∨ ∃ x ∈ xs, ReflTransGen (fun a b => b ∈ next a) x y
  closed : ∀ y ∈ seen', y ∉ seen → ∀ z ∈ next y, z ∈ seen'

/-- One search after the other: what each adds stays. -/
theorem Visited.foldl {visit : List α → α → List α} {xs seen : List α}
    (each : ∀ x ∈ xs, ∀ seen₁, (∀ y ∈ seen, y ∈ seen₁) → Visited next [x] seen₁ (visit seen₁ x)) :
    Visited next xs seen (xs.foldl visit seen) := by
  induction xs generalizing seen with
  | nil => exact ⟨fun _ member => member, by simp, fun _ => Or.inl, fun _ member new => absurd member new⟩
  | cons x rest ih =>
    have first := each x mem_cons_self seen fun _ member => member
    have later := @ih (visit seen x) fun y member seen₁ kept =>
      each y (.tail _ member) seen₁ fun z before => kept z (first.kept z before)
    refine ⟨fun y member => later.kept y (first.kept y member), fun y member => ?_, fun y member => ?_,
      fun y member new z edge => ?_⟩
    · rcases mem_cons.mp member with rfl | behind
      · exact later.kept y (first.here y mem_cons_self)
      · exact later.here y behind
    · rcases later.reached y member with before | ⟨z, behind, path⟩
      · rcases first.reached y before with before | ⟨z, only, path⟩
        · exact Or.inl before
        · exact Or.inr ⟨x, mem_cons_self, mem_singleton.mp only ▸ path⟩
      · exact Or.inr ⟨z, mem_cons_of_mem _ behind, path⟩
    · -- A vertex is new to the first search or to those behind it.
      by_cases before : y ∈ visit seen x
      · exact later.kept z (first.closed y before new z edge)
      · exact later.closed y member before z edge

variable {bound fuel : Nat} (closed : ∀ a, valid a → ∀ b ∈ next a, valid b)
  (room : ∀ path : List α, path.Nodup → (∀ a ∈ path, valid a) → path.length ≤ bound)
include closed room

/-- A search with fuel for every path without repetitions visits all that it has to. The path leads to the vertex where
the search is: its vertices are seen, so the vertex is none of them. -/
theorem visited_visit (fuel : Nat) (x : α) (seen path : List α) (start : valid x) (distinct : path.Nodup)
    (among : ∀ a ∈ path, valid a ∧ a ∈ seen) (enough : bound < fuel + path.length) :
    Visited next [x] seen (visit next fuel x seen) := by
  induction fuel generalizing x seen path with
  | zero =>
    -- The path alone would be longer than any path can be.
    have short := room path distinct fun a member => (among a member).1
    omega
  | succ fuel ih =>
    unfold visit
    split
    · rename_i before
      exact ⟨fun _ member => member, by simpa using before, fun _ => Or.inl, fun _ member new => absurd member new⟩
    · rename_i fresh
      -- Below the vertex the path is longer by the vertex.
      have distinct' : (x :: path).Nodup := nodup_cons.mpr ⟨fun member => fresh (among x member).2, distinct⟩
      have below : Visited next (next x) (x :: seen) _ := .foldl fun y edge seen₁ kept =>
        ih y seen₁ (x :: path) (closed x start y edge) distinct' (fun a member => by
          rcases mem_cons.mp member with rfl | earlier
          · exact ⟨start, kept a mem_cons_self⟩
          · exact ⟨(among a earlier).1, kept a (.tail _ (among a earlier).2)⟩)
          (by rw [length_cons]; omega)
      refine ⟨fun y member => below.kept y (.tail _ member),
        by simpa using below.kept x mem_cons_self, fun y member => ?_, fun y member new z edge => ?_⟩
      · rcases below.reached y member with before | ⟨z, edge, path⟩
        · rcases mem_cons.mp before with rfl | before
          · exact Or.inr ⟨y, mem_cons_self, .refl⟩
          · exact Or.inl before
        · exact Or.inr ⟨x, mem_cons_self, .head edge path⟩
      · by_cases same : y = x
        · subst same
          exact below.here z edge
        · exact below.closed y member (by simp [same, new]) z edge

variable (enough : bound < fuel)
include enough

/-- The closure of a list of vertices is what is reachable from one of them. -/
theorem mem_closure {start : List α} (all : ∀ x ∈ start, valid x) (y : α) :
    y ∈ closure next fuel start ↔ ∃ x ∈ start, ReflTransGen (fun a b => b ∈ next a) x y := by
  have visited : Visited next start [] (closure next fuel start) := .foldl fun x member seen _ =>
    visited_visit closed room fuel x seen [] (all x member) (by simp) (by simp) (by simpa using enough)
  constructor
  · intro member
    exact (visited.reached y member).resolve_left (by simp)
  · rintro ⟨x, member, path⟩
    induction path with
    | refl => exact visited.here x member
    | tail _ edge ih => exact visited.closed _ ih (by simp) _ edge

/-- A search from nothing finds exactly what is reachable. -/
theorem mem_visit {x : α} (start : valid x) (y : α) :
    y ∈ visit next fuel x [] ↔ ReflTransGen (fun a b => b ∈ next a) x y := by
  have found := mem_closure closed room enough (by simpa using start : ∀ a ∈ [x], valid a) y
  simpa [closure] using found

end EntityGraph.Reach
