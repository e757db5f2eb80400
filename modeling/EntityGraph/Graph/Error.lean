import EntityGraph.Graph.Node

/-! Why an operation on a graph fails. -/

namespace EntityGraph

/-- Why an operation on a graph fails. -/
inductive GraphError where
  /-- The handle is not one of a live node. -/
  | unknownNode (id : NodeId)
  | unknownType (name : String)
  | tooDeep (limit : Nat)
  /-- Reactions did not come to rest. -/
  | unsettled (rounds : Nat)
deriving DecidableEq

/-- The wording. -/
def GraphError.message : GraphError → String
  | .unknownNode id => s!"node {id.display} is not live in this space"
  | .unknownType name => "unknown type " ++ Quoted.quote name
  | .tooDeep limit => s!"graph nesting depth exceeds maximum {limit}"
  | .unsettled rounds => s!"space did not settle after {rounds} rounds of reactions"

end EntityGraph
