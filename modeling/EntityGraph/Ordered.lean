/-! Lists kept in strictly increasing order, used as sets and as maps from text. -/

namespace EntityGraph

namespace Ordered

/-- Adds an element to an increasing list; one that is already there stays as it is. -/
def insert (lt : α → α → Bool) (a : α) : List α → List α
  | [] => [a]
  | b :: rest =>
    if lt a b then a :: b :: rest
    else if lt b a then b :: insert lt a rest
    else b :: rest

/-- The elements in increasing order, each once. -/
def ofList (lt : α → α → Bool) (items : List α) : List α :=
  items.foldl (fun sorted a => insert lt a sorted) []

end Ordered

namespace Entries

/-- Binds a key in a list ordered by key; an older binding is replaced. -/
def insert (key : String) (value : α) : List (String × α) → List (String × α)
  | [] => [(key, value)]
  | (k, v) :: rest =>
    if key < k then (key, value) :: (k, v) :: rest
    else if k < key then (k, v) :: insert key value rest
    else (key, value) :: rest

/-- The bindings in key order, the last of a repeated key. -/
def ofList (bindings : List (String × α)) : List (String × α) :=
  bindings.foldl (fun entries b => insert b.1 b.2 entries) []

/-- The value bound to a key. -/
def find? (key : String) (entries : List (String × α)) : Option α :=
  entries.lookup key

/-- Removes a key. -/
def erase (key : String) (entries : List (String × α)) : List (String × α) :=
  entries.filter fun e => e.1 != key

end Entries

end EntityGraph
