import EntityGraph.Proofs.Record.Requirement
import EntityGraph.Proofs.Schema.Compile

/-! Schemas to write with and to read with: what a writer may send, and when a reader understands it. -/

namespace EntityGraph

open List

variable {r : Record} {l : Layout} {name : String}

/-- What of a value goes on the wire is known to the schema, and each record in it is as asked. A place is the kind that
is declared there. A value that has not the shape of its kind is never written, so nothing is asked of it. -/
def Schema.known (s : Schema) (asked : Record → Prop) : Requirement Kind Prop where
  nothing := True
  both := And
  leaf
    | .enum e, .enum name =>
      e.isDynamic = true ∨ ∃ listed, s.enum? name = some listed ∧ (e.id, e.name) ∈ listed.values
    | .unknown u, .openType name => s.member? name u.name = none
    | _, _ => True
  atList
    | _, .list k, elements => elements k
    | _, _, _ => True
  -- The keys of a map are in order, as every map keeps them.
  atMap
    | entries, .map k, values => (entries.map Prod.fst).Pairwise (· < ·) ∧ values k
    | _, _, _ => True
  atRecord
    | r, .record _, inside => inside (.record r.layout.name)
    | r, .openType name, inside =>
      (s.member? name r.layout.name).isSome = true ∧ inside (.record r.layout.name)
    | _, _, _ => True
  whole r _ fields :=
    s.type? r.layout.name = some r.layout ∧ r.fields.length = r.layout.fields.length ∧ asked r ∧ fields
  atField
    | _, some f, _, value => f.onWire = true → value f.kind
    | _, none, _, _ => True

/-- What of the value goes on the wire is known. -/
def Value.Known (s : Schema) (asked : Record → Prop) (v : Value) (k : Kind) : Prop :=
  (s.known asked).value v k

/-- The record is one of the schema, with a field for each position, and is as asked. What of it goes on the wire is
known. -/
def recordKnown (s : Schema) (asked : Record → Prop) (r : Record) : Prop :=
  (s.known asked).record r (.record r.layout.name)

section Known

variable {s : Schema} {asked : Record → Prop}

theorem Schema.known_conjoins : (s.known asked).Conjoins fun answer => answer :=
  ⟨trivial, fun _ _ => Iff.rfl⟩

/-- Fields are known if the value of each of them is that is on the wire. -/
theorem recordKnown_iff : recordKnown s asked r ↔ s.type? r.layout.name = some r.layout ∧
    r.fields.length = r.layout.fields.length ∧ asked r ∧ ∀ (i : Nat) (info : FieldInfo) (v : Value),
      r.layout.fields[i]? = some info → info.onWire = true → r.fields[i]? = some (.value v) →
        v.Known s asked info.kind := by
  rcases r with ⟨layout, fields⟩
  refine and_congr_right fun _ => and_congr_right fun _ => and_congr_right fun _ =>
    Schema.known_conjoins.fields_iff.trans ⟨fun all i info v described onWire here => ?_, fun all i v here => ?_⟩
  · have asked := all i v here
    rw [described] at asked
    exact asked onWire
  · cases described : layout.fields[i]? with
    | none => exact trivial
    | some info => exact fun onWire => all i info v described onWire here

end Known

/-- The fields on the wire, in wire order. -/
def Layout.wireFields (l : Layout) : List FieldInfo :=
  l.wireOrder.filterMap fun i => l.fields[i]?

/-- Two versions of a schema: they have the same enumerations, open types and type names, and the fields that a type
has on the wire in one of them are the first ones that it has there in the other, by name and kind. -/
structure Schema.Compatible (writer reader : Schema) : Prop where
  enums : ∀ name, writer.enum? name = reader.enum? name
  opens : ∀ name, writer.open? name = reader.open? name
  types : ∀ name, (writer.type? name).isSome = (reader.type? name).isSome
  wire : ∀ name here there, writer.type? name = some here → reader.type? name = some there →
    (here.wireFields.map fun f => (f.name, f.kind)) <+: (there.wireFields.map fun f => (f.name, f.kind)) ∨
      (there.wireFields.map fun f => (f.name, f.kind)) <+: (here.wireFields.map fun f => (f.name, f.kind))

theorem Schema.Compatible.refl (s : Schema) : s.Compatible s where
  enums _ := rfl
  opens _ := rfl
  types _ := rfl
  wire name here there writes reads := by
    rw [writes] at reads
    cases reads
    exact Or.inl (prefix_refl _)

/-- Every position on the wire has a field, so both lists run in step. -/
theorem Layout.Accepted.getElem?_wireFields (accepted : l.Accepted) (k : Nat) :
    l.wireFields[k]? = l.wireOrder[k]?.bind fun i => l.fields[i]? := by
  have inside : ∀ i ∈ l.wireOrder, ∃ f, l.fields[i]? = some f := by
    intro i member
    obtain ⟨f, found, -⟩ := (accepted.wire i).mp member
    exact ⟨f, found⟩
  unfold wireFields
  -- No position is dropped on the way, whatever order they stand in.
  generalize l.wireOrder = order at inside
  induction order generalizing k with
  | nil => simp
  | cons i rest ih =>
    obtain ⟨f, found⟩ := inside i mem_cons_self
    rw [filterMap_cons, found]
    cases k with
    | zero => simp [found]
    | succ k =>
      simpa using ih k fun j member => inside j (.tail _ member)

theorem Layout.Accepted.length_wireFields (accepted : l.Accepted) : l.wireFields.length = l.wireOrder.length := by
  refine filterMap_length_eq_length.mpr fun i member => ?_
  obtain ⟨f, found, -⟩ := (accepted.wire i).mp member
  rw [found]
  rfl

/-- A type reads what the other version of it wrote at the same place on the wire. -/
theorem Schema.Compatible.aligned {writer reader : Schema} (compatible : writer.Compatible reader)
    {here there : Layout} (writes : writer.type? name = some here) (reads : reader.type? name = some there)
    (accepted : here.Accepted) (accepted' : there.Accepted) {k i j : Nat} (sent : here.wireOrder[k]? = some i)
    (read : there.wireOrder[k]? = some j) :
    ∃ f g, here.fields[i]? = some f ∧ there.fields[j]? = some g ∧ f.name = g.name ∧ f.kind = g.kind := by
  obtain ⟨f, found, -⟩ := (accepted.wire i).mp (mem_of_getElem? sent)
  obtain ⟨g, found', -⟩ := (accepted'.wire j).mp (mem_of_getElem? read)
  refine ⟨f, g, found, found', ?_⟩
  have first : (here.wireFields.map fun f => (f.name, f.kind))[k]? = some (f.name, f.kind) := by
    simp [accepted.getElem?_wireFields, sent, found]
  have second : (there.wireFields.map fun f => (f.name, f.kind))[k]? = some (g.name, g.kind) := by
    simp [accepted'.getElem?_wireFields, read, found']
  -- Whichever list is the longer one, it continues the other.
  rcases compatible.wire name here there writes reads with ⟨more, same⟩ | ⟨more, same⟩
  · rw [← same, getElem?_append_left (List.getElem?_eq_some_iff.mp first).1, first] at second
    simpa using second
  · rw [← same, getElem?_append_left (List.getElem?_eq_some_iff.mp second).1, second] at first
    simpa [eq_comm] using first

/-- The same names are members of an open type in both versions. -/
theorem Schema.Compatible.isSome_member? {writer reader : Schema} (compatible : writer.Compatible reader)
    (name typeName : String) : (reader.member? name typeName).isSome = (writer.member? name typeName).isSome := by
  unfold Schema.member?
  -- The open type is the same, so only the type itself is left to look up.
  rw [compatible.opens name]
  cases reader.open? name with
  | none => rfl
  | some o =>
    simp only [Option.bind_eq_bind, Option.bind_some]
    split
    · exact (compatible.types typeName).symm
    · rfl

theorem Schema.type?_of_member? {s : Schema} {typeName : String}
    (found : s.member? name typeName = some l) : s.type? typeName = some l := by
  unfold Schema.member? at found
  obtain ⟨o, -, found⟩ := Option.bind_eq_some_iff.mp found
  split at found
  · exact found
  · cases found

namespace Wire

variable {writer reader : Schema}

/-- Two accepted versions of a schema, one to write with and one to read with. -/
structure Channel (writer reader : Schema) : Prop where
  compatible : writer.Compatible reader
  writes : ∀ {name l}, writer.type? name = some l → l.Accepted
  reads : ∀ {name l}, reader.type? name = some l → l.Accepted
  listed : ∀ {name e}, reader.enum? name = some e → ∀ {id value}, (id, value) ∈ e.values →
    id ≠ 0 ∧ e.nameOf? id = some value

/-- Two accepted schemas, one to write with and one to read with, where the reader may know fewer members of open types.
Both agree on enumerations, on type names and on what stands at one place on the wire. -/
structure Line (writer reader : Schema) : Prop where
  enums : ∀ name, writer.enum? name = reader.enum? name
  types : ∀ name, (writer.type? name).isSome = (reader.type? name).isSome
  unknown : ∀ {name typeName}, writer.member? name typeName = none → reader.member? name typeName = none
  aligned : ∀ {name : String} {here there : Layout}, writer.type? name = some here → reader.type? name = some there →
    ∀ {k i j : Nat}, here.wireOrder[k]? = some i → there.wireOrder[k]? = some j →
      ∃ f g, here.fields[i]? = some f ∧ there.fields[j]? = some g ∧ f.name = g.name ∧ f.kind = g.kind
  writes : ∀ {name l}, writer.type? name = some l → l.Accepted
  reads : ∀ {name l}, reader.type? name = some l → l.Accepted
  listed : ∀ {name e}, reader.enum? name = some e → ∀ {id value}, (id, value) ∈ e.values →
    id ≠ 0 ∧ e.nameOf? id = some value

/-- Over a channel both know the same members. -/
theorem Channel.line (channel : Channel writer reader) : Line writer reader where
  enums := channel.compatible.enums
  types := channel.compatible.types
  unknown := by
    intro name typeName none
    have agree := channel.compatible.isSome_member? name typeName
    rw [none] at agree
    simpa using agree
  aligned writes reads _ _ _ sent read :=
    channel.compatible.aligned writes reads (channel.writes writes) (channel.reads reads) sent read
  writes := channel.writes
  reads := channel.reads
  listed := channel.listed

theorem Line.type?_of_known (line : Line writer reader) {asked : Record → Prop}
    (known : recordKnown writer asked r) : ∃ there, reader.type? r.layout.name = some there := by
  rcases r with ⟨layout, values⟩
  have found : writer.type? layout.name = some layout := known.1
  rw [← Option.isSome_iff_exists, ← line.types, found]
  rfl

/-- Accepted schemas that are compatible make a channel. -/
theorem Channel.of_compile {serial serial' : Nat} {d d' : Declarations}
    (compiled : Schema.compile serial d = .ok writer) (compiled' : Schema.compile serial' d' = .ok reader)
    (compatible : writer.Compatible reader) : Channel writer reader where
  compatible := compatible
  writes := Schema.accepted_of_type? compiled
  reads := Schema.accepted_of_type? compiled'
  listed := Schema.nameOf?_of_listed compiled'

end Wire

end EntityGraph
