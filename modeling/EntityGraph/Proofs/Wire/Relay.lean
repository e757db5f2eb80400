import EntityGraph.Proofs.Schema.References
import EntityGraph.Proofs.Wire.Image
import EntityGraph.Proofs.Wire.Versions

/-! A relay that knows fewer members of open types than the writer passes on the bytes that it was sent.

It reads what it knows into values and keeps the rest as bytes. Values have one way to be written, and the bytes of a
record do not depend on where it stands. -/

namespace EntityGraph

open List

variable {there : Layout}

/-- The same declarations with fewer members of open types. -/
structure Declarations.Forgets (d d' : Declarations) : Prop where
  types : d'.types = d.types
  enums : d'.enums = d.enums
  opens : List.Forall₂ (fun o o' => o'.name = o.name ∧ o'.flavour = o.flavour ∧ o'.members ⊆ o.members) d.opens d'.opens

namespace Schema

variable {serial : Nat} {d : Declarations} {s : Schema}

/-- The types of an accepted schema are the declared ones. -/
theorem isSome_type? (compiled : compile serial d = .ok s) (name : String) :
    (s.type? name).isSome = (d.type? name).isSome := by
  rw [Bool.eq_iff_iff, Option.isSome_iff_exists, Option.isSome_iff_exists]
  constructor
  · rintro ⟨l, found⟩
    obtain ⟨t, -, -, declared, -⟩ := declared_of_type? compiled found
    exact ⟨t, declared⟩
  · rintro ⟨t, declared⟩
    exact type?_of_declared compiled declared

end Schema

namespace Declarations.Forgets

variable {serial serial' : Nat} {d d' : Declarations} {writer reader : Schema} (forgets : d.Forgets d')
  (compiled : Schema.compile serial d = .ok writer) (compiled' : Schema.compile serial' d' = .ok reader) {name : String}
include forgets

theorem type? (name : String) : d'.type? name = d.type? name := by
  unfold Declarations.type?
  rw [forgets.types]

/-- An open type of the reader is one of the writer, which has all its members. -/
theorem exists_open? {o' : OpenType} (found : (d'.opens.find? fun o => o.name == name) = some o') :
    ∃ o, (d.opens.find? fun o => o.name == name) = some o ∧ o'.members ⊆ o.members := by
  have each := forgets.opens
  revert found
  generalize d.opens = opens, d'.opens = opens' at each
  intro found
  -- The open types run in step under the same names, so the same one is found first on both sides.
  induction each with
  | nil => cases found
  | @cons o p rest rest' first _ ih =>
    rw [find?_cons] at found ⊢
    rw [first.1] at found
    by_cases here : o.name == name
    · rw [here] at found ⊢
      cases found
      exact ⟨o, rfl, first.2.2⟩
    · rw [Bool.eq_false_iff.mpr here] at found ⊢
      exact ih found

include compiled compiled'

/-- The layouts of a type have the same fields on the wire. -/
theorem layouts {here : Layout} (writes : writer.type? name = some here)
    (reads : reader.type? name = some there) : here.wireOrder = there.wireOrder ∧
      here.fields.map FieldInfo.toFieldDecl = there.fields.map FieldInfo.toFieldDecl := by
  obtain ⟨t, rules, order, declared, -, rfl⟩ := Schema.declared_of_type? compiled writes
  obtain ⟨t', rules', order', declared', -, rfl⟩ := Schema.declared_of_type? compiled' reads
  rw [forgets.type?, declared] at declared'
  cases declared'
  exact ⟨rfl, by simp [Declarations.layout]⟩

/-- What the writer sends reaches the reader, in whose open types some members may be missing. -/
theorem line : Wire.Line writer reader where
  enums name := by
    unfold Schema.enum?
    rw [Schema.enums_of_compile compiled, Schema.enums_of_compile compiled', forgets.enums]
  types name := by
    rw [Schema.isSome_type? compiled, Schema.isSome_type? compiled', forgets.type?]
  unknown := by
    intro name typeName none
    -- A member for the reader would be one for the writer.
    by_contra some
    obtain ⟨l, found⟩ := Option.ne_none_iff_exists'.mp some
    have known := Schema.type?_of_member? found
    unfold Schema.member? at found none
    obtain ⟨o', open', listed⟩ := Option.bind_eq_some_iff.mp found
    split at listed
    · rename_i member
      unfold Schema.open? at open'
      rw [(Schema.opens_of_compile compiled').1] at open'
      obtain ⟨o, found, more⟩ := forgets.exists_open? open'
      have member : o.members.contains typeName = true := by
        rw [contains_iff_mem] at member ⊢
        exact more member
      have type : (writer.type? typeName).isSome = true := by
        rw [Schema.isSome_type? compiled, ← forgets.type?, ← Schema.isSome_type? compiled', known]
        rfl
      unfold Schema.open? at none
      rw [(Schema.opens_of_compile compiled).1, found] at none
      simp only [Option.bind_eq_bind, Option.bind_some, member, if_true] at none
      rw [none] at type
      cases type
    · cases listed
  aligned writes reads k i j sent read := by
    obtain ⟨order, fields⟩ := forgets.layouts compiled compiled' writes reads
    -- One order on the wire gives one position, and the fields there are declared in the same way.
    rw [← order, sent] at read
    cases read
    obtain ⟨f, found, -⟩ := ((Schema.accepted_of_type? compiled writes).wire i).mp (mem_of_getElem? sent)
    have same := congrArg (fun fields => fields[i]?) fields
    simp only [getElem?_map, found, Option.map_some] at same
    obtain ⟨g, found', declared⟩ := Option.map_eq_some_iff.mp same.symm
    exact ⟨f, g, found, found', by rw [declared], by rw [declared]⟩
  writes := Schema.accepted_of_type? compiled
  reads := Schema.accepted_of_type? compiled'
  listed := Schema.nameOf?_of_listed compiled'

end Declarations.Forgets

namespace Wire

open Reader

/-- Whatever is written of the first value is written of the second. -/
def Rewrites (site : Site) (flagged : Bool) (kind : Kind) (depth : Nat) (v w : Value) : Prop :=
  ∀ part, Wire.value site flagged v kind depth = .ok part → Wire.value site flagged w kind depth = .ok part

/-- A value that the reader made of another is written as the same bytes wherever it can stand, and so is a record by
itself. -/
structure Relayed (F : Formulas) (reader : Schema) (v w : Value) : Prop where
  value : ∀ {flagged room kind}, Reads F reader flagged room kind w →
    ∀ site depth, Rewrites site flagged kind depth v w
  record : ∀ {flagged room kind}, Reads F reader flagged room kind w → ∀ {r r'}, v = .record r →
    w = .record r' → ∀ {depth bytes}, Wire.record r depth = .ok bytes → Wire.record r' depth = .ok bytes

section Relay

variable {F : Formulas} {writer reader : Schema} {r : Record} {bytes : List UInt8} {sent : List (Field Value)}

theorem Relayed.of_value {v w : Value} (other : ∀ r, w ≠ .record r) (same : ∀ {flagged room kind},
      Reads F reader flagged room kind w → ∀ site depth, Rewrites site flagged kind depth v w) :
    Relayed F reader v w :=
  ⟨same, fun _ _ r' _ isRecord => absurd isRecord (other r')⟩

/-- A list is written as the same bytes if its elements are. -/
theorem Relayed.list {items items' : List (Option Value)}
    (each : List.Forall₂ (Option.Rel (Relayed F reader)) items items') :
    Relayed F reader (.list items) (.list items') := by
  refine .of_value (fun r same => by cases same) fun reads site depth part written => ?_
  cases reads with
  | list _ _ elements =>
    -- An element is written again because the reader can have it as an element of this list.
    refine list_ok_of_forall₂ (forall₂_imp_mem each fun a b _ member related => ?_) written
    cases related with
    | none => exact .none
    | some same => exact .some (same.value (elements _ member) _ _)

/-- A map is written as the same bytes if its values are. -/
theorem Relayed.map {entries entries' : List (String × Option Value)}
    (each : List.Forall₂ (Entries.Rel (Relayed F reader)) entries entries') :
    Relayed F reader (.map entries) (.map entries') := by
  refine .of_value (fun r same => by cases same) fun reads site depth part written => ?_
  cases reads with
  | map _ _ _ elements =>
    refine map_ok_of_forall₂ (forall₂_imp_mem each fun a b _ member related => ?_) written
    rcases related with ⟨key, related⟩
    cases related with
    | none => exact .mk key .none
    | some same => exact .mk key (.some (same.value (elements _ _ member) _ _))

/-- A member that the reader does not know is written again from the bytes that were kept of it. -/
theorem Relayed.forgotten {level : Nat} (kept : Wire.record r level = .ok bytes) :
    Relayed F reader (.record r) (.unknown ⟨r.layout.name, .binary bytes⟩) := by
  refine .of_value (fun r same => by cases same) fun reads site depth part written => ?_
  cases reads with
  | unknown _ _ _ none =>
    rw [Wire.value] at written
    obtain ⟨bytes', recorded, rfl⟩ := Except.map_eq_ok.mp written
    -- The bytes were kept at another depth, which they do not depend on.
    rw [record_unique recorded kept]
    rfl

/-- A record is written as the same bytes if the fields are that it has on the wire. -/
theorem record_relayed {r : SizedRecord} (line : Line writer reader)
    (known : writer.type? r.layout.name = some r.layout)
    (found : reader.type? r.layout.name = some there) (places : r.layout.wireOrder.length = there.wireOrder.length)
    (each : List.Forall₂ (Field.Rel (Relayed F reader)) r.sent sent) {room : Nat}
    (reads : ∀ (i : Nat) (info : FieldInfo) (v : Value), there.fields[i]? = some info → info.onWire = true →
      (there.receive F sent).fields[i]? = some (.value v) → Reads F reader true room info.kind v)
    {depth : Nat} (written : Wire.record r depth = .ok bytes) :
    Wire.record (there.receive F sent) depth = .ok bytes := by
  have layout : (there.receive F sent).layout = there := Layout.layout_receive
  have accepted := line.reads found
  refine record_ok_of_forall₂ (Nat.le_refl _) ?_ written
  rw [layout]
  refine forall₂_of_getElem? places fun k i j here position part partHere => ?_
  -- The fields at one place on the wire have the same name and kind for both.
  obtain ⟨f, g, inside, inside', name, kind⟩ := line.aligned known found here position
  obtain ⟨g', found', onWire⟩ := (accepted.wire j).mp (mem_of_getElem? position)
  rw [inside'] at found'
  cases found'
  rw [partAt_eq inside, name, kind] at partHere
  have holds : (there.receive F sent).fields[j]? = some (sent[k]?.getD .absent) :=
    accepted.getElem?_receive position
  rw [partAt_eq (r := ⟨_, Layout.length_receive.trans (by rw [layout])⟩) (by rw [layout]; exact inside'), holds, layout,
    Schema.name_of_type? found, Option.getD_some]
  refine fieldPart_ok_of_rel ?_ partHere
  -- What was sent in this place is written again, since the reader holds it in a field of its kind.
  have filled : r.sent[k]? = some (r.fields[i]?.getD .absent) := by
    rw [RecordOf.sent, getElem?_map, here, Option.map_some]
  have inside : k < sent.length := by
    rw [← each.length_eq]
    exact (List.getElem?_eq_some_iff.mp filled).1
  have arrived : sent[k]? = some sent[k] := getElem?_eq_getElem inside
  obtain ⟨f, there, related⟩ := exists_of_forall₂ each arrived
  rw [filled] at there
  cases there
  rw [arrived, Option.getD_some] at holds ⊢
  generalize r.fields[i]?.getD .absent = a, sent[k] = b at related holds ⊢
  cases related with
  | absent => exact .absent
  | null => exact .null
  | value same => exact .value (same.value (reads j g _ inside' onWire holds) _ _)

theorem Relayed.received {r : SizedRecord} (line : Line writer reader)
    (known : writer.type? r.layout.name = some r.layout) (found : reader.type? r.layout.name = some there)
    (places : r.layout.wireOrder.length = there.wireOrder.length)
    (each : List.Forall₂ (Field.Rel (Relayed F reader)) r.sent sent) :
    Relayed F reader (.record r) (.record (there.receive F sent)) := by
  have layout : (there.receive F sent).layout = there := Layout.layout_receive
  have named : there.name = r.layout.name := Schema.name_of_type? found
  -- The bytes of the record itself, without the name and the length that stand before it in a value.
  have body : ∀ {flagged room kind}, Reads F reader flagged room kind (.record (there.receive F sent)) →
      ∀ {depth bytes}, Wire.record r depth = .ok bytes →
        Wire.record (there.receive F sent) depth = .ok bytes := by
    intro flagged room kind reads depth bytes written
    cases reads with
    | record _ _ _ _ fields =>
      rw [layout] at fields
      exact record_relayed line known found places each fields written
  constructor
  case record =>
    intro flagged room kind reads r₁ r₂ same same' depth bytes written
    cases same
    cases same'
    exact body reads written
  case value =>
    intro flagged room kind reads site depth part written
    -- The name of the type is the same, whether the kind has it or it is written.
    cases kind with
    | record name =>
      rw [Wire.value] at written ⊢
      rw [layout, named]
      split at written
      · rename_i same
        obtain ⟨bytes, recorded, rfl⟩ := Except.map_eq_ok.mp written
        rw [if_pos same, body reads recorded]
        rfl
      · cases written
    | openType name =>
      rw [Wire.value] at written ⊢
      rw [layout, named]
      obtain ⟨bytes, recorded, rfl⟩ := Except.map_eq_ok.mp written
      rw [body reads recorded]
      rfl
    | _ => simp [Wire.value] at written

/-- Each part of what is sent arrives as something that is written as the same bytes. -/
theorem respects_relayed (line : Line writer reader)
    (places : ∀ {name : String} {here there : Layout}, writer.type? name = some here → reader.type? name = some there →
      here.wireOrder.length = there.wireOrder.length) :
    Respects F writer reader (fun _ => True) (Relayed F reader) where
  bool _ := .of_value (fun r same => by cases same) fun _ _ _ _ written => written
  int _ := .of_value (fun r same => by cases same) fun _ _ _ _ written => written
  double _ := .of_value (fun r same => by cases same) fun _ _ _ _ written => written
  text _ := .of_value (fun r same => by cases same) fun _ _ _ _ written => written
  enum _ := .of_value (fun r same => by cases same) fun _ _ _ _ written => written
  unknown name body := by
    refine .of_value (fun r same => by cases same) fun reads site depth part written => ?_
    cases reads
    exact written
  list := Relayed.list
  map := Relayed.map
  record known _ found each := .received line known found (places known found) each
  forgotten _ _ kept := .forgotten kept

end Relay

/-- A relay whose schema is that of the writer with fewer members of open types writes the bytes that it has read. -/
theorem encode_relayed {serial serial' : Nat} {d d' : Declarations} {writer reader : Schema}
    {F : Formulas} (compiled : Schema.compile serial d = .ok writer)
    (compiled' : Schema.compile serial' d' = .ok reader) (forgets : d.Forgets d')
    {t u : Record} (known : recordKnown writer (fun _ => True) t) {bytes : List UInt8} (written : encode t = .ok bytes)
    (read : decode F reader t.layout.name bytes = .ok u) : encode u = .ok bytes := by
  have line := forgets.line compiled compiled'
  have places : ∀ {name : String} {here there : Layout}, writer.type? name = some here →
      reader.type? name = some there → here.wireOrder.length = there.wireOrder.length :=
    fun writes reads => congrArg List.length (forgets.layouts compiled compiled' writes reads).1
  -- What the relay holds was read, so that each value stands in a field of a kind that it can be written in.
  have relayed := line.decode_transfers (respects_relayed line places) known written read
  exact relayed.record (decode_reads line.reads read).2 rfl rfl written

/-- The fields of a letter, whose parts and notes may be of several types. -/
def letterFields : List FieldDecl :=
  [⟨"parts", .list (.openType "Part"), 1, false, false, none, []⟩,
    ⟨"notes", .map (.openType "Part"), 2, false, false, none, []⟩]

/-- The fields of a stamp. -/
def stampFields : List FieldDecl :=
  [⟨"price", .int, 1, false, false, none, []⟩]

/-- Letters and stamps, with some of them as parts. -/
def letterDeclarations (members : List String) : Declarations :=
  ⟨[⟨"Letter", none, letterFields⟩, ⟨"Stamp", none, stampFields⟩], [], [⟨"Part", .variety, members⟩]⟩

def letterSchema (serial : Nat) (members : List String) : Schema :=
  ⟨serial, [plainLayout serial "Letter" letterFields, plainLayout serial "Stamp" stampFields], [],
    [⟨"Part", .variety, members⟩]⟩

theorem compile_letterWriter :
    Schema.compile 0 (letterDeclarations ["Letter", "Stamp"]) = .ok (letterSchema 0 ["Letter", "Stamp"]) := by
  decide +kernel

theorem compile_letterReader : Schema.compile 1 (letterDeclarations ["Letter"]) = .ok (letterSchema 1 ["Letter"]) := by
  decide +kernel

theorem forgets_stamp : (letterDeclarations ["Letter", "Stamp"]).Forgets (letterDeclarations ["Letter"]) where
  types := rfl
  enums := rfl
  opens := .cons ⟨rfl, rfl, by decide⟩ .nil

def stamp (price : Int64) : Record :=
  ⟨plainLayout 0 "Stamp" stampFields, [.value (.int price)]⟩

def letter (parts notes : Field Value) : Record :=
  ⟨plainLayout 0 "Letter" letterFields, [parts, notes]⟩

/-- A letter with a stamp, and with another letter that has a stamp and something unknown in its notes. -/
def stampedLetter : Record :=
  letter (.value (.list [some (.record (stamp 5)), none, some (.record (letter .absent
    (.value (.map [("a", some (.record (stamp 7))), ("b", some (.unknown ⟨"Seal", .empty⟩))]))))])) .null

theorem known_stampedLetter : recordKnown (letterSchema 0 ["Letter", "Stamp"]) (fun _ => True) stampedLetter := by
  have isLetter : (letterSchema 0 ["Letter", "Stamp"]).type? "Letter" = some (plainLayout 0 "Letter" letterFields) := by
    decide +kernel
  have isStamp : (letterSchema 0 ["Letter", "Stamp"]).type? "Stamp" = some (plainLayout 0 "Stamp" stampFields) := by
    decide +kernel
  have letters : ((letterSchema 0 ["Letter", "Stamp"]).member? "Part" "Letter").isSome = true := by decide +kernel
  have stamps : ((letterSchema 0 ["Letter", "Stamp"]).member? "Part" "Stamp").isSome = true := by decide +kernel
  have seals : (letterSchema 0 ["Letter", "Stamp"]).member? "Part" "Seal" = none := by decide +kernel
  have known : ∀ price, recordKnown (letterSchema 0 ["Letter", "Stamp"]) (fun _ => True) (stamp price) :=
    fun price => ⟨isStamp, rfl, trivial, fun _ => trivial, trivial⟩
  exact ⟨isLetter, rfl, trivial, fun _ => ⟨⟨stamps, known 5⟩, ⟨letters, isLetter, rfl, trivial,
    fun _ => ⟨by decide, ⟨stamps, known 7⟩, seals, trivial⟩, trivial⟩, trivial⟩, trivial⟩

/-- The bytes of the letter. -/
def stampedLetterBytes : List UInt8 :=
  [2, 1, 31, 3, 5, 5, 83, 116, 97, 109, 112, 4, 1, 1, 3, 10, 6, 76, 101, 116, 116, 101, 114, 26, 2, 1, 14, 2, 1, 97, 5,
    83, 116, 97, 109, 112, 4, 1, 1, 3, 14, 1, 98, 4, 83, 101, 97, 108, 1, 0]

/-- A relay that does not know stamps passes the letter on. -/
theorem encode_relayed_stampedLetter : ∃ u, encode stampedLetter = .ok stampedLetterBytes ∧
    decode ⟨fun _ _ => .absent, fun _ _ => .absent⟩ (letterSchema 1 ["Letter"]) "Letter" stampedLetterBytes = .ok u ∧
    encode u = .ok stampedLetterBytes := by
  have written : encode stampedLetter = .ok stampedLetterBytes := by decide +kernel
  obtain ⟨u, read⟩ := Except.exists_of_isOk
    (x := decode ⟨fun _ _ => .absent, fun _ _ => .absent⟩ (letterSchema 1 ["Letter"]) "Letter" stampedLetterBytes)
    (by decide +kernel)
  exact ⟨u, written, read,
    encode_relayed compile_letterWriter compile_letterReader forgets_stamp known_stampedLetter written read⟩

end Wire

end EntityGraph
