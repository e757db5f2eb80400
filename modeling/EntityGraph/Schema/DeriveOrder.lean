import EntityGraph.Schema.Declaration

/-! The order of pure derivations: each comes after the pure derivations it reads. -/

namespace EntityGraph.DeriveOrder

/-- The search so far: finished positions, and the order of the pure ones among them. -/
structure Progress where
  done : List Nat
  order : List Nat

/-- The other positions that a field's pure derivation reads. -/
def reads (fields : List FieldDecl) (i : Nat) : List Nat :=
  match fields[i]? with
  | none => []
  | some f =>
    if f.isPure then
      (f.inputs.filterMap fun name => fields.findIdx? fun g => g.name == name).filter (· != i)
    else []

/-- The position holds a pure derivation. -/
def isPure (fields : List FieldDecl) (i : Nat) : Bool :=
  fields[i]?.any FieldDecl.isPure

/-- Visits a position after what it reads. The path holds the positions under way, the latest first; meeting one of them
again is an error that lists the cycle from it on. One more fuel than there are fields suffices. -/
def visit (fields : List FieldDecl) : Nat → List Nat → Progress → Nat → Except (List Nat) Progress
  | 0, _, progress, _ => .ok progress
  | fuel + 1, path, progress, i =>
    if progress.done.contains i then .ok progress
    else if path.contains i then .error (path.takeWhile (· != i) ++ [i]).reverse
    else do
      let progress ← (reads fields i).foldlM (visit fields fuel (i :: path)) progress
      let order := if isPure fields i then progress.order ++ [i] else progress.order
      return ⟨i :: progress.done, order⟩

/-- The positions of the pure derivations in order, or the positions of a cycle. -/
def run (fields : List FieldDecl) : Except (List Nat) (List Nat) := do
  let progress ← (List.range fields.length).foldlM (visit fields (fields.length + 1) []) ⟨[], []⟩
  return progress.order

end EntityGraph.DeriveOrder
