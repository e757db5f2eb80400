import EntityGraph.Number.Decimal
import EntityGraph.Record.Basic

/-! Records as text for people. Dangerous fields are not shown. -/

namespace EntityGraph

/-- The outline of a text: what stands on a line of its own when it is laid out. -/
inductive Outline where
  | word (text : String)
  /-- A name before an outline in parentheses. -/
  | call (name : String) (argument : Outline)
  /-- A name before named outlines in braces. -/
  | braces (name : String) (fields : List (String × Outline))
  /-- Outlines in brackets. -/
  | brackets (items : List Outline)
  /-- Outlines with keys in braces. -/
  | table (entries : List (String × Outline))

namespace Outline

mutual

/-- The text on one line. -/
def compact : Outline → String
  | .word text => text
  | .call name argument => name ++ "(" ++ argument.compact ++ ")"
  | .braces name [] => name
  | .braces name (f :: fields) =>
    name ++ " \x7b " ++ ", ".intercalate (compactFields (f :: fields)) ++ " \x7d"
  | .brackets items => "[" ++ ", ".intercalate (compactItems items) ++ "]"
  | .table entries => "\x7b" ++ ", ".intercalate (compactFields entries) ++ "\x7d"

/-- The items on one line. -/
def compactItems : List Outline → List String
  | [] => []
  | o :: rest => o.compact :: compactItems rest

/-- The named outlines on one line. -/
def compactFields : List (String × Outline) → List String
  | [] => []
  | (name, o) :: rest => (name ++ ": " ++ o.compact) :: compactFields rest

end

/-- Adds characters to those written, which stand latest first. A line begins with four blanks for each level. -/
def put (level : Nat) : List Char → List Char → List Char
  | [], written => written
  | c :: rest, '\n' :: written => put level rest (c :: (List.replicate (4 * level) ' ' ++ '\n' :: written))
  | c :: rest, written => put level rest (c :: written)

mutual

/-- Adds the text with every entry on a line of its own, one level further in. -/
def write (level : Nat) : Outline → List Char → List Char
  | .word text, written => put level text.toList written
  | .call name argument, written =>
    put level [')'] (put (level + 1) [',', '\n']
      (argument.write (level + 1) (put level (name ++ "(\n").toList written)))
  | .braces name [], written => put level name.toList written
  | .braces name (f :: fields), written =>
    put level ['\x7d'] (writeFields (level + 1) (f :: fields) (put level (name ++ " \x7b\n").toList written))
  | .brackets [], written => put level ['[', ']'] written
  | .brackets (o :: items), written =>
    put level [']'] (writeItems (level + 1) (o :: items) (put level ['[', '\n'] written))
  | .table [], written => put level ['\x7b', '\x7d'] written
  | .table (e :: entries), written =>
    put level ['\x7d'] (writeFields (level + 1) (e :: entries) (put level ['\x7b', '\n'] written))

/-- Adds the items, each as an entry. -/
def writeItems (level : Nat) : List Outline → List Char → List Char
  | [], written => written
  | o :: rest, written => writeItems level rest (put level [',', '\n'] (o.write level written))

/-- Adds the named outlines, each as an entry. -/
def writeFields (level : Nat) : List (String × Outline) → List Char → List Char
  | [], written => written
  | (name, o) :: rest, written =>
    writeFields level rest (put level [',', '\n'] (o.write level (put level (name ++ ": ").toList written)))

end

/-- The text with every entry on a line of its own. -/
def spread (o : Outline) : String :=
  String.ofList (o.write 0 []).reverse

end Outline

namespace Display

/-- Doubles are positional from a ten thousandth up to sixteen digits, and a tie goes away from zero. -/
def doubleFormat : Decimal.Format := ⟨-4, 15, false, .up⟩

/-- The text of any double. -/
def double (x : Double) : String :=
  if x.isNaN then "NaN"
  else if x.isFinite then String.ofList (Decimal.finiteChars doubleFormat x)
  else if x.negative then "-inf" else "inf"

/-- Stands in for what is not shown. -/
def hidden : Outline := .word "<redacted>"

mutual

/-- The outline of a value. -/
def value : Value → Outline
  | .bool b => .word (if b then "true" else "false")
  | .int n => .word (String.ofList (Decimal.intChars n.toInt))
  | .double x => .word (double x)
  | .text s => .word (Quoted.quote s)
  | .enum e => .word e.name
  | .record r => record r
  | .unknown u => .word ("<unknown " ++ u.name ++ ">")
  | .list items => .brackets (itemOutlines items)
  | .map entries => .table (entryOutlines entries)

/-- The outline of a record: its declared fields by name. -/
def record : RecordOf Value → Outline
  | ⟨layout, fields⟩ => .braces layout.name (fieldOutlines fields layout.fields)

/-- The outlines of the declared fields. -/
def fieldOutlines : List (Field Value) → List FieldInfo → List (String × Outline)
  | .value v :: fields, info :: infos =>
    (info.name, if info.dangerous then hidden else value v) :: fieldOutlines fields infos
  | .null :: fields, info :: infos =>
    (info.name, if info.dangerous then hidden else .word "Null") :: fieldOutlines fields infos
  | .absent :: fields, _ :: infos => fieldOutlines fields infos
  | _, _ => []

/-- The outlines of elements that may be null. -/
def itemOutlines : List (Option Value) → List Outline
  | [] => []
  | some v :: rest => .call "Some" (value v) :: itemOutlines rest
  | none :: rest => .word "None" :: itemOutlines rest

/-- The outlines of entries whose values may be null. -/
def entryOutlines : List (String × Option Value) → List (String × Outline)
  | [] => []
  | (k, some v) :: rest => (Quoted.quote k, .call "Some" (value v)) :: entryOutlines rest
  | (k, none) :: rest => (Quoted.quote k, .word "None") :: entryOutlines rest

end

end Display

/-- The text of a record, on one line or laid out. -/
def RecordOf.display (r : Record) (layOut : Bool) : String :=
  if layOut then (Display.record r).spread else (Display.record r).compact

end EntityGraph
