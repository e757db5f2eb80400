import EntityGraph.Proofs.Wire.Receive

/-! Readers with an older or a newer version of a schema: they find what both versions know, and nothing else. -/

namespace EntityGraph

open List

variable {k i k' j : Nat} {f g : FieldInfo}

/-- The layout has a field of the name on the wire. -/
def Layout.OnWire (l : Layout) (name : String) : Prop :=
  ∃ f ∈ l.fields, f.name = name ∧ f.onWire = true

/-- What a reader makes of a value that was written with another version of its schema. Scalars are the same, bit for
bit, and collections are read element by element. A record is one of the reader's, with the fields that both have on the
wire; its other ones are absent. -/
inductive Value.ReadsAs (reader : Schema) : Value → Value → Prop where
  | bool (b : Bool) : ReadsAs reader (.bool b) (.bool b)
  | int (n : Int64) : ReadsAs reader (.int n) (.int n)
  | double (x : Double) : ReadsAs reader (.double x) (.double x)
  | text (s : String) : ReadsAs reader (.text s) (.text s)
  | enum (e : EnumValue) : ReadsAs reader (.enum e) (.enum e)
  | unknown {u w : Unknown} (name : u.name = w.name) : ReadsAs reader (.unknown u) (.unknown w)
  | list {items items' : List (Option Value)} (elements : List.Forall₂ (Option.Rel (ReadsAs reader)) items items') :
      ReadsAs reader (.list items) (.list items')
  | map {entries entries' : List (String × Option Value)}
      (elements : List.Forall₂ (Entries.Rel (ReadsAs reader)) entries entries') :
      ReadsAs reader (.map entries) (.map entries')
  | record {r r' : Record} (type : reader.type? r.layout.name = some r'.layout)
      (shared : ∀ name, r.layout.OnWire name → r'.layout.OnWire name →
        Field.Rel (ReadsAs reader) (r.field name) (r'.field name))
      (added : ∀ name, r'.layout.OnWire name → ¬ r.layout.OnWire name → r'.field name = .absent) :
      ReadsAs reader (.record r) (.record r')

namespace Layout.Accepted

variable {l : Layout} (accepted : l.Accepted)
include accepted

/-- A field on the wire has a place there. -/
theorem exists_place {name : String} (onWire : l.OnWire name) :
    ∃ (k i : Nat) (f : FieldInfo), l.wireOrder[k]? = some i ∧ l.fields[i]? = some f ∧ f.name = name := by
  obtain ⟨f, member, named, onWire⟩ := onWire
  obtain ⟨i, found⟩ := getElem?_of_mem member
  obtain ⟨k, position⟩ := getElem?_of_mem ((accepted.wire i).mpr ⟨f, found, onWire⟩)
  exact ⟨k, i, f, position, found, named⟩

theorem onWire_of_place (position : l.wireOrder[k]? = some i) (found : l.fields[i]? = some f) : l.OnWire f.name := by
  obtain ⟨g, found', onWire⟩ := (accepted.wire i).mp (mem_of_getElem? position)
  rw [found] at found'
  cases found'
  exact ⟨f, mem_of_getElem? found, rfl, onWire⟩

/-- Fields of the same name are in the same place. -/
theorem place_eq (position : l.wireOrder[k]? = some i) (position' : l.wireOrder[k']? = some j)
    (found : l.fields[i]? = some f) (found' : l.fields[j]? = some g) (same : f.name = g.name) : k = k' := by
  have at_ := accepted.eq_of_name found found' same
  subst at_
  refine (getElem?_inj (List.getElem?_eq_some_iff.mp position).1 accepted.wireOnce).mp ?_
  rw [position, position']

end Layout.Accepted

namespace Wire.Channel

variable {writer reader : Schema} (channel : Channel writer reader) {name : String} {here there : Layout}
  (writes : writer.type? name = some here) (reads : reader.type? name = some there)
include channel writes reads

/-- What both versions have on the wire stands in the same place of both. -/
theorem place_eq (position : here.wireOrder[k]? = some i) (position' : there.wireOrder[k']? = some j)
    (found : here.fields[i]? = some f) (found' : there.fields[j]? = some g) (same : f.name = g.name) : k = k' := by
  have accepted := channel.writes writes
  have accepted' := channel.reads reads
  by_cases short : k' < here.wireOrder.length
  · -- The writer has a field in the reader's place, and it has the same name.
    obtain ⟨f', g', found'', inside', named, -⟩ := channel.compatible.aligned writes reads accepted accepted'
      (getElem?_eq_getElem short) position'
    rw [found'] at inside'
    cases inside'
    exact accepted.place_eq position (getElem?_eq_getElem short) found found'' (same.trans named.symm)
  · -- The reader has a field in the writer's place, and it has the same name.
    have inside := (List.getElem?_eq_some_iff.mp position).1
    have inside' := (List.getElem?_eq_some_iff.mp position').1
    have long : k < there.wireOrder.length := by omega
    obtain ⟨f', g', found'', found''', named, -⟩ := channel.compatible.aligned writes reads accepted accepted'
      position (getElem?_eq_getElem long)
    rw [found] at found''
    cases found''
    exact accepted'.place_eq (getElem?_eq_getElem long) position' found''' found' (named.symm.trans same)

end Wire.Channel

/-- Reading with another version respects the way in which values are put together. -/
theorem Wire.respects_readsAs {writer reader : Schema} (channel : Channel writer reader) (F : Formulas)
    (asked : Record → Prop) : Respects F writer reader asked (Value.ReadsAs reader) where
  bool := .bool
  int := .int
  double := .double
  text := .text
  enum := .enum
  unknown name body := .unknown rfl
  list := .list
  map := .map
  record := by
    intro r there sent writes _ reads related
    have accepted := channel.writes writes
    have accepted' := channel.reads reads
    have layout : (there.receive F sent).layout = there := Layout.layout_receive
    -- A field of the reader is what was sent in its place.
    have read : ∀ {k j : Nat} {g : FieldInfo}, there.wireOrder[k]? = some j → there.fields[j]? = some g →
        (there.receive F sent).field g.name = sent[k]?.getD .absent := by
      intro k j g position found
      rw [RecordOf.field_name (by rw [layout]; exact accepted') (by rw [layout]; exact found)]
      rw [accepted'.getElem?_receive position, Option.getD_some]
    have count : sent.length = r.layout.wireOrder.length := by
      rw [← related.length_eq, RecordOf.sent, length_map]
    refine .record (by rw [layout]; exact reads) (fun name onWire onWire' => ?_) (fun name onWire' only => ?_)
    · -- Both versions have the field in the same place on the wire.
      rw [layout] at onWire'
      obtain ⟨k, i, f, position, found, rfl⟩ := accepted.exists_place onWire
      obtain ⟨k', j, g, position', found', same⟩ := accepted'.exists_place onWire'
      have place := channel.place_eq writes reads position position' found found' same.symm
      subst place
      have inside : k < sent.length := by
        rw [count]
        exact (List.getElem?_eq_some_iff.mp position).1
      obtain ⟨field, here, same'⟩ := exists_of_forall₂ related (getElem?_eq_getElem inside)
      rw [RecordOf.sent, getElem?_map, position, Option.map_some] at here
      cases here
      rw [RecordOf.field_name accepted found, ← same, read position' found', getElem?_eq_getElem inside]
      exact same'
    · -- The place of the field is behind all that was sent.
      rw [layout] at onWire'
      obtain ⟨k, j, g, position, found, rfl⟩ := accepted'.exists_place onWire'
      have behind : sent.length ≤ k := by
        by_contra before
        rw [count, Nat.not_le] at before
        obtain ⟨f, g', found', inside, named, -⟩ := channel.compatible.aligned writes reads accepted accepted'
          (getElem?_eq_getElem before) position
        rw [found] at inside
        cases inside
        exact only (named ▸ accepted.onWire_of_place (getElem?_eq_getElem before) found')
      rw [read position found, getElem?_eq_none behind, Option.getD_none]
  forgotten member none _ := by
    rw [← channel.compatible.isSome_member?, none] at member
    cases member

/-- A reader finds in what was written with another version of its schema all that both versions know, at every
depth. -/
theorem Wire.decode_readsAs {serial serial' : Nat} {d d' : Declarations}
    {writer reader : Schema} {F : Formulas} (compiled : Schema.compile serial d = .ok writer)
    (compiled' : Schema.compile serial' d' = .ok reader) (compatible : writer.Compatible reader)
    {t t' : Record} {bytes : List UInt8} (known : recordKnown writer (fun _ => True) t)
    (written : encode t = .ok bytes) (read : decode F reader t.layout.name bytes = .ok t') :
    Value.ReadsAs reader (.record t) (.record t') := by
  have channel := Channel.of_compile compiled compiled' compatible
  exact decode_transfers channel (respects_readsAs channel F _) known written read

namespace Wire

/-- The fields of a note. -/
def noteFields : List FieldDecl :=
  [⟨"text", .text, 1, false, false, none, []⟩, ⟨"author", .record "Author", 2, false, false, none, []⟩,
    ⟨"rank", .int, 3, false, false, none, []⟩]

/-- The fields of an author. -/
def authorFields : List FieldDecl :=
  [⟨"born", .int, 1, false, false, none, []⟩, ⟨"died", .int, 2, false, false, none, []⟩]

/-- Notes and authors with some of their fields. -/
def noteDeclarations (note author : List FieldDecl) : Declarations :=
  ⟨[⟨"Note", none, note⟩, ⟨"Author", none, author⟩], [], []⟩

/-- The layout of fields that are all on the wire and in its order. -/
def plainLayout (serial : Nat) (name : String) (fields : List FieldDecl) : Layout :=
  ⟨serial, name, none, fields.map fun f => ⟨f, false, false⟩, List.range fields.length, [], [], [], false, false, false⟩

/-- The version that knows nothing of an author's death. -/
def noteWriter : Schema :=
  ⟨0, [plainLayout 0 "Note" noteFields, plainLayout 0 "Author" (authorFields.take 1)], [], []⟩

/-- The version that knows nothing of a note's rank. -/
def noteReader : Schema :=
  ⟨1, [plainLayout 1 "Note" (noteFields.take 2), plainLayout 1 "Author" authorFields], [], []⟩

theorem compile_noteWriter :
    Schema.compile 0 (noteDeclarations noteFields (authorFields.take 1)) = .ok noteWriter := by decide +kernel

theorem compile_noteReader :
    Schema.compile 1 (noteDeclarations (noteFields.take 2) authorFields) = .ok noteReader := by decide +kernel

/-- Notes have more fields in the one version, and authors in the other. -/
theorem compatible_note : noteWriter.Compatible noteReader where
  enums _ := rfl
  opens _ := rfl
  types name := by
    rw [Bool.eq_iff_iff]
    simp [Schema.type?, noteWriter, noteReader, plainLayout]
  wire name here there writes reads := by
    have wire : ∀ here ∈ noteWriter.types, ∀ there ∈ noteReader.types, here.name = there.name →
        (here.wireFields.map fun f => (f.name, f.kind)) <+: (there.wireFields.map fun f => (f.name, f.kind)) ∨
          (there.wireFields.map fun f => (f.name, f.kind)) <+: (here.wireFields.map fun f => (f.name, f.kind)) := by
      decide +kernel
    refine wire here (mem_of_find?_eq_some writes) there (mem_of_find?_eq_some reads) ?_
    rw [Schema.name_of_type? writes, Schema.name_of_type? reads]

/-- A note with a rank, by an author. -/
def rankedNote : Record :=
  ⟨plainLayout 0 "Note" noteFields, [.value (.text "hi"),
    .value (.record ⟨plainLayout 0 "Author" (authorFields.take 1), [.value (.int 1950)]⟩), .value (.int 3)]⟩

theorem known_rankedNote : recordKnown noteWriter (fun _ => True) rankedNote := by
  have note : noteWriter.type? "Note" = some (plainLayout 0 "Note" noteFields) := by decide +kernel
  have author : noteWriter.type? "Author" = some (plainLayout 0 "Author" (authorFields.take 1)) := by decide +kernel
  exact ⟨note, rfl, trivial, fun _ => trivial, fun _ => ⟨author, rfl, trivial, fun _ => trivial, trivial⟩,
    fun _ => trivial, trivial⟩

/-- The bytes of the note. -/
def rankedNoteBytes : List UInt8 :=
  [3, 1, 63, 2, 104, 105, 5, 1, 1, 3, 188, 30, 6]

/-- The note is read by the version that knows no rank but more of its author. -/
theorem decode_readsAs_rankedNote : ∃ t', encode rankedNote = .ok rankedNoteBytes ∧
    decode ⟨fun _ _ => .absent, fun _ _ => .absent⟩ noteReader "Note" rankedNoteBytes = .ok t' ∧
      Value.ReadsAs noteReader (.record rankedNote) (.record t') := by
  have written : encode rankedNote = .ok rankedNoteBytes := by decide +kernel
  obtain ⟨t', read⟩ := Except.exists_of_isOk
    (x := decode ⟨fun _ _ => .absent, fun _ _ => .absent⟩ noteReader "Note" rankedNoteBytes) (by decide +kernel)
  exact ⟨t', written, read,
    decode_readsAs compile_noteWriter compile_noteReader compatible_note known_rankedNote written read⟩

end Wire

end EntityGraph
