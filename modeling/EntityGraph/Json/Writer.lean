import EntityGraph.Json.Basic

/-! Writing JSON documents, character by character.

What is written stands latest first, so that every character is added in front and nothing is copied: deep documents
take no longer than flat ones. -/

namespace EntityGraph.Json

/-- Adds some characters to those written. -/
def put (cs written : List Char) : List Char :=
  cs.reverseAux written

/-- What is written after some characters. -/
theorem put_eq (cs written : List Char) : put cs written = cs.reverse ++ written := by
  simp [put, List.reverseAux_eq]

mutual

/-- Adds a document to what is written. -/
def write : Json → List Char → List Char
  | .array [], written => put ['[', ']'] written
  | .array (j :: rest), written => ']' :: writeItems rest (j.write ('[' :: written))
  | .object [], written => put ['\x7b', '\x7d'] written
  | .object ((k, j) :: rest), written =>
    '\x7d' :: writeMembers rest (j.write (':' :: put (stringChars k) ('\x7b' :: written)))
  | .string s, written => put (stringChars s) written
  | .number n, written => put (numberChars n) written
  | .bool true, written => put ['t', 'r', 'u', 'e'] written
  | .bool false, written => put ['f', 'a', 'l', 's', 'e'] written
  | .null, written => put ['n', 'u', 'l', 'l'] written

/-- Adds further items. -/
def writeItems : List Json → List Char → List Char
  | [], written => written
  | j :: rest, written => writeItems rest (j.write (',' :: written))

/-- Adds further members. -/
def writeMembers : List (String × Json) → List Char → List Char
  | [], written => written
  | (k, j) :: rest, written => writeMembers rest (j.write (':' :: put (stringChars k) (',' :: written)))

end

/-- Adds the members of an object, each with the function that writes its value. -/
def writeBindings : List (String × (List Char → List Char)) → List Char → List Char
  | [], written => written
  | (k, value) :: rest, written => writeBindings rest (value (':' :: put (stringChars k) (',' :: written)))

/-- Adds an object, each member with the function that writes its value. -/
def writeObject : List (String × (List Char → List Char)) → List Char → List Char
  | [], written => put ['\x7b', '\x7d'] written
  | (k, value) :: rest, written =>
    '\x7d' :: writeBindings rest (value (':' :: put (stringChars k) ('\x7b' :: written)))

mutual

/-- Adds a document with the keys of every object in order. -/
def writeCanonical : Json → List Char → List Char
  | .array [], written => put ['[', ']'] written
  | .array (j :: rest), written => ']' :: writeCanonicalItems rest (j.writeCanonical ('[' :: written))
  | .object members, written => writeObject (Entries.ofList (canonicalWriters members)) written
  | j, written => j.write written

/-- Adds further items. -/
def writeCanonicalItems : List Json → List Char → List Char
  | [], written => written
  | j :: rest, written => writeCanonicalItems rest (j.writeCanonical (',' :: written))

/-- The functions that write the members' values. -/
def canonicalWriters : List (String × Json) → List (String × (List Char → List Char))
  | [] => []
  | (k, j) :: rest => (k, fun written => j.writeCanonical written) :: canonicalWriters rest

end

/-- Texts with commas between them are the first one and then the others, each after a comma. -/
theorem commaChars_cons (text : List Char) (rest : List (List Char)) :
    commaChars (text :: rest) = text ++ rest.flatMap (',' :: ·) := by
  induction rest generalizing text with
  | nil => simp [commaChars]
  | cons next rest ih => simp [commaChars, ih]

mutual

/-- Writing adds the text of a document. -/
theorem write_eq : (j : Json) → (written : List Char) → j.write written = j.chars.reverse ++ written
  | .array [], written => by simp [write, chars, itemChars, commaChars, put_eq]
  | .array (j :: rest), written => by
    simp [write, chars, itemChars, commaChars_cons, write_eq j, writeItems_eq rest]
  | .object [], written => by simp [write, chars, memberTexts, commaChars, put_eq]
  | .object ((k, j) :: rest), written => by
    simp [write, chars, memberTexts, memberChars, commaChars_cons, put_eq, write_eq j, writeMembers_eq rest]
  | .string s, written => by simp [write, chars, put_eq]
  | .number n, written => by simp [write, chars, put_eq]
  | .bool true, written => by simp [write, chars, put_eq]
  | .bool false, written => by simp [write, chars, put_eq]
  | .null, written => by simp [write, chars, put_eq]

/-- Writing further items adds their texts, each after a comma. -/
theorem writeItems_eq : (items : List Json) → (written : List Char) →
    writeItems items written = ((itemChars items).flatMap (',' :: ·)).reverse ++ written
  | [], written => by simp [writeItems, itemChars]
  | j :: rest, written => by simp [writeItems, itemChars, write_eq j, writeItems_eq rest]

/-- Writing further members adds their texts, each after a comma. -/
theorem writeMembers_eq : (members : List (String × Json)) → (written : List Char) →
    writeMembers members written =
      (((memberTexts members).map memberChars).flatMap (',' :: ·)).reverse ++ written
  | [], written => by simp [writeMembers, memberTexts]
  | (k, j) :: rest, written => by
    simp [writeMembers, memberTexts, memberChars, put_eq, write_eq j, writeMembers_eq rest]

end

/-- The text of a document. -/
def render (j : Json) : String :=
  String.ofList (j.write []).reverse

/-- The text of a document with the keys of every object in order. -/
def canonical (j : Json) : String :=
  String.ofList (j.writeCanonical []).reverse

/-- The text of a document is made of its characters. -/
theorem render_eq (j : Json) : j.render = String.ofList j.chars := by
  simp [render, write_eq]

/-- Writes a text that is already there. -/
def textWriter (b : String × List Char) : String × (List Char → List Char) :=
  (b.1, fun written => b.2.reverse ++ written)

/-- Binding a text and writing it can change places. -/
theorem insert_textWriter (k : String) (text : List Char) (entries : List (String × List Char)) :
    Entries.insert k (fun written => text.reverse ++ written) (entries.map textWriter) =
      (Entries.insert k text entries).map textWriter := by
  induction entries with
  | nil => simp [Entries.insert, textWriter]
  | cons e entries ih =>
    obtain ⟨key, old⟩ := e
    simp only [List.map_cons, textWriter, Entries.insert]
    split
    · simp [textWriter]
    · split
      · simpa [textWriter] using ih
      · simp [textWriter]

/-- Ordering texts and writing them can change places. -/
theorem ofList_textWriter (entries : List (String × List Char)) :
    Entries.ofList (entries.map textWriter) = (Entries.ofList entries).map textWriter := by
  -- The bindings made so far stay quantified over.
  suffices h : ∀ made : List (String × List Char),
      (entries.map textWriter).foldl (fun made b => Entries.insert b.1 b.2 made) (made.map textWriter) =
        (entries.foldl (fun made b => Entries.insert b.1 b.2 made) made).map textWriter from h []
  induction entries with
  | nil => intro made; rfl
  | cons e entries ih =>
    intro made
    simp only [List.map_cons, List.foldl_cons]
    rw [show (textWriter e).2 = fun written => e.2.reverse ++ written from rfl,
      show (textWriter e).1 = e.1 from rfl, insert_textWriter, ih]

/-- Writing bindings adds their texts, each after a comma. -/
theorem writeBindings_textWriter (entries : List (String × List Char)) (written : List Char) :
    writeBindings (entries.map textWriter) written =
      ((entries.map memberChars).flatMap (',' :: ·)).reverse ++ written := by
  induction entries generalizing written with
  | nil => simp [writeBindings]
  | cons e entries ih => simp [writeBindings, textWriter, memberChars, put_eq] at ih ⊢; simp [ih]

/-- Writing an object adds the texts of its members. -/
theorem writeObject_textWriter (entries : List (String × List Char)) (written : List Char) :
    writeObject (entries.map textWriter) written =
      ('\x7b' :: (commaChars (entries.map memberChars) ++ ['\x7d'])).reverse ++ written := by
  cases entries with
  | nil => simp [writeObject, commaChars, put_eq]
  | cons e entries =>
    have more := writeBindings_textWriter entries
    simp only [List.map_cons, writeObject, textWriter, commaChars_cons] at more ⊢
    simp [more, memberChars, put_eq]

mutual

/-- Writing in canonical form adds the canonical text of a document. -/
theorem writeCanonical_eq : (j : Json) → (written : List Char) →
    j.writeCanonical written = j.canonicalChars.reverse ++ written
  | .array [], written => by simp [writeCanonical, canonicalChars, canonicalItems, commaChars, put_eq]
  | .array (j :: rest), written => by
    simp [writeCanonical, canonicalChars, canonicalItems, commaChars_cons, writeCanonical_eq j,
      writeCanonicalItems_eq rest]
  | .object members, written => by
    rw [writeCanonical, canonicalWriters_eq members, ofList_textWriter, writeObject_textWriter, canonicalChars]
  | .string s, written => by simp [writeCanonical, canonicalChars, write_eq]
  | .number n, written => by simp [writeCanonical, canonicalChars, write_eq]
  | .bool b, written => by simp [writeCanonical, canonicalChars, write_eq]
  | .null, written => by simp [writeCanonical, canonicalChars, write_eq]

/-- Writing further items adds their canonical texts, each after a comma. -/
theorem writeCanonicalItems_eq : (items : List Json) → (written : List Char) →
    writeCanonicalItems items written = ((canonicalItems items).flatMap (',' :: ·)).reverse ++ written
  | [], written => by simp [writeCanonicalItems, canonicalItems]
  | j :: rest, written => by
    simp [writeCanonicalItems, canonicalItems, writeCanonical_eq j, writeCanonicalItems_eq rest]

/-- The functions that write the members' values write their canonical texts. -/
theorem canonicalWriters_eq : (members : List (String × Json)) →
    canonicalWriters members = (canonicalMembers members).map textWriter
  | [] => by simp [canonicalWriters, canonicalMembers]
  | (k, j) :: rest => by
    have same : (fun written => j.writeCanonical written) = fun written => j.canonicalChars.reverse ++ written :=
      funext (writeCanonical_eq j)
    simp only [canonicalWriters, canonicalMembers, List.map_cons, textWriter, canonicalWriters_eq rest, same]

end

/-- The canonical text of a document is made of its canonical characters. -/
theorem canonical_eq (j : Json) : j.canonical = String.ofList j.canonicalChars := by
  simp [canonical, writeCanonical_eq]

end EntityGraph.Json
