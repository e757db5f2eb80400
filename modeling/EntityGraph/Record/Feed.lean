import EntityGraph.Record.Equality

/-! What a hash of a record is fed. Equal feeds make equal hash codes, and nothing is hashed here. -/

namespace EntityGraph

/-- One item of a feed. -/
inductive FeedItem where
  /-- A small number that tells cases apart. -/
  | tag (n : Nat)
  /-- A count. -/
  | count (n : Nat)
  | bool (b : Bool)
  | int (n : Int64)
  | double (x : Double)
  | enumId (id : UInt32)
  | text (s : String)
deriving DecidableEq

/-- What was fed so far, the latest first. -/
abbrev Feed := List FeedItem

mutual

/-- Feeds the case of a value and its content. -/
def Value.feed (mode : Comparison) : Value → Feed → Feed
  | .bool b, out => .bool b :: .tag 0 :: out
  | .int n, out => .int n :: .tag 1 :: out
  | .double x, out => .double x :: .tag 2 :: out
  | .text s, out => .text s :: .tag 3 :: out
  | .enum e, out => .text e.name :: .enumId e.id :: .tag 4 :: out
  | .record r, out => feedRecord mode r (.tag 5 :: out)
  | .unknown u, out => .text u.name :: .tag 6 :: out
  | .list items, out => feedItems mode items (.count items.length :: .tag 7 :: out)
  | .map entries, out => feedEntries mode entries (.count entries.length :: .tag 8 :: out)

/-- Feeds the type name and, unless only declared fields count, the fields that take part. -/
def feedRecord (mode : Comparison) : RecordOf Value → Feed → Feed
  | ⟨layout, fields⟩, out =>
    if mode == .declared then .text layout.name :: out
    else feedFields mode layout fields layout.fields (.text layout.name :: out)

/-- Feeds the remaining fields of a layout. -/
def feedFields (mode : Comparison) (layout : Layout) :
    List (Field Value) → List FieldInfo → Feed → Feed
  | .value v :: fields, info :: infos, out =>
    feedFields mode layout fields infos
      (if mode.skips layout info then out else v.feed mode (.tag 1 :: out))
  | .null :: fields, info :: infos, out =>
    feedFields mode layout fields infos (if mode.skips layout info then out else .tag 0 :: out)
  | .absent :: fields, info :: infos, out =>
    feedFields mode layout fields infos (if mode.skips layout info then out else .tag 0 :: out)
  | _, _, out => out

/-- Feeds the elements of a list. -/
def feedItems (mode : Comparison) : List (Option Value) → Feed → Feed
  | [], out => out
  | some v :: rest, out => feedItems mode rest (v.feed mode (.tag 1 :: out))
  | none :: rest, out => feedItems mode rest (.tag 0 :: out)

/-- Feeds the entries of a map. -/
def feedEntries (mode : Comparison) : List (String × Option Value) → Feed → Feed
  | [], out => out
  | (k, some v) :: rest, out => feedEntries mode rest (v.feed mode (.tag 1 :: .text k :: out))
  | (k, none) :: rest, out => feedEntries mode rest (.tag 0 :: .text k :: out)

end

/-- Everything that a hash of the record is fed. -/
def RecordOf.feed (mode : Comparison) (r : Record) : Feed :=
  feedRecord mode r []

end EntityGraph
