import EntityGraph.Json.DocumentReader

/-! Records read straight from the tokens of a text, in the order of the text. -/

namespace EntityGraph.TokenReader

open DocumentReader (Site)

/-- The number as a value of the kind. -/
def number (site : Site) (kind : Kind) : Number → Except JsonError Value
  | .integer n =>
    match kind with
    | .int =>
      match (Number.integer n).int64? with
      | some i => .ok (.int i)
      | none => .error (.wrongValue s!"integer `{n}`" kind.describe)
    | .double => .ok (.double (Decimal.ofInt n))
    | _ => .error (site.invalid kind)
  | .double x =>
    match kind with
    | .double => .ok (.double x)
    | _ => .error (site.invalid kind)

/-- The literal as a value of the kind. -/
def literal (site : Site) (kind : Kind) (l : Literal) : Except JsonError Value :=
  match l.number? with
  | none => .error .malformed
  | some n => number site kind n

/-- The string as a value of the kind. -/
def string (schema : Schema) (site : Site) (kind : Kind) : Option String → Except JsonError Value
  | none => .error .malformed
  | some s => DocumentReader.string schema site kind s

/-- A record in an open field, whose members were gathered first because its type name may come last. -/
def openRecord (formulas : Formulas) (schema : Schema) (site : Site) (kind : Kind)
    (members : List (Option String × TokenTree)) (room depth : Nat) : Except JsonError (Option Value) :=
  match TokenTree.membersToJson? members room [] with
  | none => .error .malformed
  | some gathered => DocumentReader.value formulas schema (.object gathered) site kind depth

/-- The text goes on after the last item. -/
def ensure (closed : Bool) : Except JsonError Unit :=
  if closed then .ok () else .error .malformed

mutual

/-- Tokens as a value of the kind; null is none. -/
def value (formulas : Formulas) (schema : Schema) :
    TokenTree → Site → Kind → Nat → Nat → Except JsonError (Option Value)
  | .null, _, _, _, _ => .ok none
  | .bool b, site, kind, _, _ =>
    match kind with
    | .bool => .ok (some (.bool b))
    | _ => .error (site.invalid kind)
  | .number l, site, kind, _, _ => (literal site kind l).map some
  | .string s, site, kind, _, _ => (string schema site kind s).map some
  | .array _ _, _, _, 0, _ => .error .malformed
  | .array ts closed, site, kind, room + 1, depth =>
    match kind with
    | .list element => do
      let vs ← items formulas schema ts site kind element room (depth + 1) Limits.collectionItems
      ensure closed
      return some (.list vs)
    | _ => .error (site.invalid kind)
  | .object _ _, _, _, 0, _ => .error .malformed
  | .object members closed, site, kind, room + 1, depth =>
    match kind with
    | .record name =>
      match schema.type? name with
      | none => .error (.unknownType name)
      | some layout => do
        let empty ← DocumentReader.start layout (depth + 1)
        let draft ← fields formulas schema members room (depth + 1) empty
        ensure closed
        return some (.record (draft.buildRead formulas))
    | .openType _ =>
      match closed with
      | true => openRecord formulas schema site kind members room depth
      | false => .error .malformed
    | .map element => do
      let es ← entries formulas schema members site kind element room (depth + 1) []
      ensure closed
      return some (.map es)
    | _ => .error (site.invalid kind)

/-- The elements of an array, of which the last number says how many may follow. -/
def items (formulas : Formulas) (schema : Schema) :
    List TokenTree → Site → Kind → Kind → Nat → Nat → Nat → Except JsonError (List (Option Value))
  | [], _, _, _, _, _, _ => .ok []
  | t :: rest, site, kind, element, room, depth, left => do
    let v ← value formulas schema t site element room depth
    if left = 0 then .error (site.invalid kind)
    else do
      let vs ← items formulas schema rest site kind element room depth (left - 1)
      return v :: vs

/-- The members of an object as entries of a map, added to those given. -/
def entries (formulas : Formulas) (schema : Schema) :
    List (Option String × TokenTree) → Site → Kind → Kind → Nat → Nat → List (String × Option Value) →
      Except JsonError (List (String × Option Value))
  | [], _, _, _, _, _, before => .ok before
  | (none, _) :: _, _, _, _, _, _, _ => .error .malformed
  | (some k, t) :: rest, site, kind, element, room, depth, before =>
    if before.length = Limits.collectionItems then .error (site.invalid kind)
    else do
      let v ← value formulas schema t site element room depth
      entries formulas schema rest site kind element room depth (Entries.insert k v before)

/-- The members of an object as fields of a draft. The values of keys that the layout does not know only have to
be JSON. -/
def fields (formulas : Formulas) (schema : Schema) :
    List (Option String × TokenTree) → Nat → Nat → Draft → Except JsonError Draft
  | [], _, _, draft => .ok draft
  | (none, _) :: _, _, _, _ => .error .malformed
  | (some k, t) :: rest, room, depth, draft =>
    match draft.layout.indexOf? k, draft.layout.field? k with
    | some i, some info => do
      let v ← value formulas schema t ⟨draft.layout.name, info.name⟩ info.kind room depth
      fields formulas schema rest room depth (draft.put i (.ofOption v))
    | _, _ => do
      ensure t.isWhole
      fields formulas schema rest room depth draft

end

/-- What a message calls a number. -/
def describeNumber : Number → String
  | .integer n => s!"integer `{n}`"
  | .double x => "floating point `" ++ String.ofList (Json.numberChars (.double x)) ++ "`"

/-- The record of a layout, or the reason why the tokens at the top are none. -/
def record (formulas : Formulas) (schema : Schema) (layout : Layout) (tree : TokenTree) :
    Except JsonError Record :=
  let wrong := fun (found : String) =>
    Except.error (JsonError.wrongToken found s!"a JSON object for type {layout.name}")
  match tree with
  | .null => wrong "null"
  | .bool b => wrong (if b then "boolean `true`" else "boolean `false`")
  | .number l =>
    match l.number? with
    | none => .error .malformed
    | some n => wrong (describeNumber n)
  | .string none => .error .malformed
  | .string (some s) => wrong ("string " ++ Quoted.quote s)
  | .array _ _ => wrong "sequence"
  | .object members closed => do
    let empty ← DocumentReader.start layout 0
    let draft ← fields formulas schema members (TokenTree.levels - 1) 0 empty
    ensure closed
    return draft.buildRead formulas

/-- The record of a layout that a text describes. Nothing but blanks may follow it. -/
def document (formulas : Formulas) (schema : Schema) (layout : Layout) (bytes : List UInt8) :
    Except JsonError Record :=
  match Scan.document bytes with
  | .none => .error .malformed
  | .cut tree => record formulas schema layout tree
  | .whole tree rest => do
    let r ← record formulas schema layout tree
    ensure (Scan.skipBlank rest).isEmpty
    return r

end EntityGraph.TokenReader

namespace EntityGraph

/-- The record of a named type that a text describes. An unknown name is reported before the text is looked at. -/
def Record.ofText (formulas : Formulas) (schema : Schema) (typeName : String) (bytes : List UInt8) :
    Except JsonError Record :=
  match schema.type? typeName with
  | none => .error (.unknownType typeName)
  | some layout => (TokenReader.document formulas schema layout bytes).mapError .inText

end EntityGraph
