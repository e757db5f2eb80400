/-! Depth-first reachability in a finite graph given by a successor function. -/

namespace EntityGraph.Reach

/-- Adds to `seen` what is reachable from `x` without passing through `seen`.
The fuel bounds the depth of the search: the number of vertices suffices. -/
def visit [DecidableEq α] (next : α → List α) : Nat → α → List α → List α
  | 0, _, seen => seen
  | fuel + 1, x, seen =>
    if x ∈ seen then seen
    else (next x).foldl (fun seen y => visit next fuel y seen) (x :: seen)

/-- Everything reachable from the given vertices, themselves included. -/
def closure [DecidableEq α] (next : α → List α) (fuel : Nat) (start : List α) : List α :=
  start.foldl (fun seen x => visit next fuel x seen) []

end EntityGraph.Reach
