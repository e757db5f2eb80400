import EntityGraph.Proofs.Wire.Compatible
import EntityGraph.Proofs.Wire.Parts
import EntityGraph.Proofs.Wire.Readable
import EntityGraph.Proofs.Wire.Written

/-! From a writer to a reader: any relation that is kept when values are put together is kept by writing and reading.
A reader of the same schema gets through what was written exactly if it keeps the limits. -/

namespace EntityGraph

open List

/-- The fields that a record has on the wire, in wire order. -/
def RecordOf.sent (r : Record) : List (Field Value) :=
  r.layout.wireOrder.map fun i => r.fields[i]?.getD .absent

/-- The record that a reader makes of the fields it is sent: they fill the first positions on its own wire, and the
derivations that are not on the wire are run. -/
def Layout.receive (l : Layout) (F : Formulas) (sent : List (Field Value)) : Record :=
  ((Draft.new l).putAll (l.wireOrder.zip sent)).buildRead F

namespace Wire

open Reader

variable {body : List UInt8}

/-- The relation holds of what is sent and received as soon as it holds of its parts. -/
structure Respects (F : Formulas) (writer reader : Schema) (asked : Record → Prop)
    (rel : Value → Value → Prop) : Prop where
  bool : ∀ b, rel (.bool b) (.bool b)
  int : ∀ n, rel (.int n) (.int n)
  double : ∀ x, rel (.double x) (.double x)
  text : ∀ s, rel (.text s) (.text s)
  enum : ∀ e, rel (.enum e) (.enum e)
  unknown : ∀ name body, rel (.unknown ⟨name, body⟩) (.unknown ⟨name, .binary (unknownBody body)⟩)
  list : ∀ {items items'}, List.Forall₂ (Option.Rel rel) items items' → rel (.list items) (.list items')
  map : ∀ {entries entries'}, List.Forall₂ (Entries.Rel rel) entries entries' → rel (.map entries) (.map entries')
  record : ∀ {r : SizedRecord} {there sent}, writer.type? r.layout.name = some r.layout →
    asked r → reader.type? r.layout.name = some there → List.Forall₂ (Field.Rel rel) r.sent sent →
    rel (.record r) (.record (there.receive F sent))
  /-- A record that is a member of an open type for the writer alone is kept as the bytes that it was written as. -/
  forgotten : ∀ {name r depth bytes}, (writer.member? name r.layout.name).isSome = true →
    reader.member? name r.layout.name = none → Wire.record r depth = .ok bytes →
    rel (.record r) (.unknown ⟨r.layout.name, .binary bytes⟩)

/-- An entry behind all others leaves the next ones behind it. -/
theorem lower_append {before rest : List (String × Option Value)} {k : String} {v w : Option Value}
    (lower : ∀ e ∈ before, ∀ e' ∈ (k, v) :: rest, e.1 < e'.1) (next : ∀ key ∈ rest.map Prod.fst, k < key) :
    ∀ e ∈ before ++ [(k, w)], ∀ e' ∈ rest, e.1 < e'.1 := by
  intro e member e' later
  rcases mem_append.mp member with earlier | last
  · exact lower e earlier e' (.tail _ later)
  · rw [mem_singleton.mp last]
    exact next e'.1 (mem_map_of_mem later)

/-- The part of a value reads back, in a field of its own or inside a collection. -/
def TakesPart (value : Kind → Reader Value) (flagged : Bool) (kind : Kind) (part : Part) (sharp limits : Prop)
    (v : Value) : Prop :=
  if flagged then ∀ flags, Takes (fieldValue value kind (part.1 ++ flags)) part.2 sharp limits (v, flags)
  else Takes (value kind) part.2 sharp limits v

/-- Where a field has no flags for its value, the payload is the same as inside a collection. -/
theorem takesPart_plain {value : Kind → Reader Value} {flagged : Bool} {kind : Kind} {sharp limits : Prop} {v : Value}
    (unflagged : ∀ flags, fieldValue value kind flags = value kind >>= fun v => pure (v, flags))
    (inner : Takes (value kind) body sharp limits v) : TakesPart value flagged kind ([], body) sharp limits v := by
  -- In a field the flags of later fields are handed on with the value.
  cases flagged with
  | false => exact inner
  | true =>
    intro flags
    rw [unflagged]
    exact inner.map fun v => (v, flags)

/-- The reader for what is nested, if there is room for that. -/
def below (F : Formulas) (schema : Schema) : Nat → Option (Kind → Reader Value)
  | 0 => none
  | room + 1 => some (Reader.value F schema room)

theorem value_eq_valueWith (F : Formulas) (schema : Schema) (room : Nat) :
    Reader.value F schema room = valueWith F schema (below F schema room) := by
  cases room <;> rfl

/-- The reader has the schema of the writer, and as much room as is left at the depth. -/
def Level (writer reader : Schema) (depth room : Nat) : Prop :=
  writer = reader ∧ depth + room = Limits.depth

theorem Level.below {writer reader : Schema} {depth room left : Nat} (level : Level writer reader depth room)
    (one : room = left + 1) : Level writer reader (depth + 1) left :=
  ⟨level.1, by have := level.2; omega⟩

/-- The part has at most two flags and is read as a value related to the one that was written, on a level exactly if
the limits are kept. -/
def PartTakes (F : Formulas) (writer reader : Schema) (rel : Value → Value → Prop) (flagged : Bool)
    (kind : Kind) (depth : Nat) (part : Part) (v : Value) (limits : Prop) : Prop :=
  part.1.length ≤ 2 ∧ ∃ w, rel v w ∧ ∀ room,
    TakesPart (Reader.value F reader room) flagged kind part (Level writer reader depth room) limits w

section Part

variable {F : Formulas} {writer reader : Schema} {rel : Value → Value → Prop} {kind : Kind} {limits : Prop}
  {v w : Value} {depth : Nat} (related : rel v w) {flagged : Bool}
include related

theorem plain_takes {bytes : List UInt8}
    (unflagged : ∀ value flags, fieldValue value kind flags = value kind >>= fun v => pure (v, flags))
    (inner : ∀ room, Takes (valueWith F reader (below F reader room) kind) bytes (Level writer reader
      depth room) limits w) : PartTakes F writer reader rel flagged kind depth ([], bytes) v limits := by
  refine ⟨by simp, w, related, fun room => ?_⟩
  rw [value_eq_valueWith]
  exact takesPart_plain (unflagged _) (inner room)

variable {name : String} {empty : Value} {sized : (Kind → Reader Value) → Nat → Bool → Reader Value}
  (own : ∀ value flags, fieldValue value kind flags = fieldCollection name empty (sized value) flags)
  (inside : ∀ deeper, valueWith F reader deeper kind = nestedCollection name (deeper.map sized))
include own inside

/-- A collection with elements reads back if they do. In a field of its own it takes no room. -/
theorem collection_takes {present : List Bool} (few : present.length ≤ Limits.collectionItems) (some : present ≠ [])
    (inner : ∀ left, Takes (sized (Reader.value F reader left) present.length (!present.all id)) (bitmap present
      ++ body) (Level writer reader (if flagged then depth else depth + 1) left) limits w) :
    PartTakes F writer reader rel flagged kind depth (collectionPart flagged present body) v
      ((flagged = true ∨ depth < Limits.depth) ∧ limits) := by
  refine ⟨by cases flagged <;> simp [collectionPart], w, related, fun room => ?_⟩
  cases flagged with
  | true =>
    intro flags
    rw [own]
    exact (fieldCollection_takes few empty (inner room) flags).congr fun _ => by simp
  | false =>
    have read : Takes (nestedCollection name ((below F reader room).map sized))
        (collectionPart false present body).2 (Level writer reader depth room)
        ((below F reader room).map sized ≠ none ∧ limits) w := by
      refine nestedCollection_takes few some fun read member => ?_
      cases room with
      | zero => cases member
      | succ left =>
        cases member
        exact (inner left).mono fun level => level.below rfl
    change Takes (Reader.value F reader room kind) _ _ _ w
    rw [value_eq_valueWith, inside]
    refine read.congr fun level => and_congr_left fun _ => ?_
    have total := level.2
    cases room <;> simp [below] <;> omega

omit related in
/-- A collection without elements needs room inside a value all the same. -/
theorem emptyCollection_takes (related : rel v empty)
    (inner : ∀ value sharp, Takes (sized value 0 false) [] sharp True empty) :
    PartTakes F writer reader rel flagged kind depth (emptyPart flagged) v (flagged = true ∨ depth < Limits.depth) := by
  refine ⟨by cases flagged <;> simp [emptyPart], empty, related, fun room => ?_⟩
  cases flagged with
  | true =>
    intro flags
    rw [own]
    exact (fieldCollection_takes_empty empty flags).congr fun _ => by simp
  | false =>
    change Takes (Reader.value F reader room kind) _ _ _ empty
    rw [value_eq_valueWith, inside]
    refine (nestedCollection_takes_empty fun read member => ?_).congr fun level => ?_
    · obtain ⟨value, -, rfl⟩ := Option.map_eq_some_iff.mp member
      exact inner value _
    · have total := level.2
      cases room <;> simp [below] <;> omega

end Part

/-- What is read from each part can be chosen for all of them at once. -/
theorem exists_sent {order : List Nat} {parts : List Part} {written : Nat → Part → Prop}
    {read : Nat → Part × Field Value → Prop} (each : List.Forall₂ written order parts)
    (found : ∀ i ∈ order, ∀ part, written i part → ∃ f, read i (part, f)) :
    ∃ sent, sent.map Prod.fst = parts ∧ List.Forall₂ read order sent := by
  induction each with
  | nil => exact ⟨[], rfl, .nil⟩
  | cons first _ ih =>
    obtain ⟨f, here⟩ := found _ mem_cons_self _ first
    obtain ⟨sent, rfl, others⟩ := ih fun i member => found i (.tail _ member)
    exact ⟨_ :: sent, rfl, .cons here others⟩

section Transfer

variable {F : Formulas} {writer reader : Schema} {asked : Record → Prop} {rel : Value → Value → Prop}
  {depth : Nat} {kind : Kind} {bytes : List UInt8}

/-- What is written of the value is read as a related one. -/
def ValueTakes (F : Formulas) (writer reader : Schema) (rel : Value → Value → Prop) (site : Site)
    (flagged : Bool) (kind : Kind) (depth : Nat) (v : Value) : Prop :=
  ∀ part, Wire.value site flagged v kind depth = .ok part →
    PartTakes F writer reader rel flagged kind depth part v (v.Readable kind flagged depth)

/-- What is written of the values of a record, in fields on the wire, is read as related ones. -/
def FieldsTake (F : Formulas) (writer reader : Schema) (rel : Value → Value → Prop) (depth : Nat) (r : Record) :
    Prop :=
  ∀ (i : Nat) (info : FieldInfo) (v : Value), r.layout.fields[i]? = some info → info.onWire = true →
    r.fields[i]? = some (.value v) →
      ValueTakes F writer reader rel ⟨r.layout.name, info.name⟩ true info.kind depth v

/-- What is written of the elements of a list is read as related ones if what is written of each is. -/
theorem items_take {site : Site} {items : List (Option Value)}
    (each : ∀ v, some v ∈ items → ValueTakes F writer reader rel site false kind depth v) {out : List UInt8}
    (written : Wire.items site items kind depth out = .ok body) :
    ∃ items' bytes, List.Forall₂ (Option.Rel rel) items items' ∧ body = out.reverse ++ bytes ∧ ∀ room before,
      Takes (Reader.items (Reader.value F reader room kind) (items.map Option.isSome) before) bytes
        (Level writer reader depth room) (readable.items items (kind, false, depth)) (before.reverse ++ items') := by
  induction items generalizing out with
  | nil =>
    cases written
    refine ⟨[], [], .nil, by simp, fun room before => ?_⟩
    rw [append_nil]
    exact Takes.pure before.reverse
  | cons item rest ih =>
    have others := @ih fun v member => each v (.tail _ member)
    cases item with
    | none =>
      obtain ⟨items', bytes, related, rfl, later⟩ := others written
      refine ⟨none :: items', bytes, .cons .none related, rfl, fun room before => ?_⟩
      -- A missing element has no bytes, and the reader learns of it from the bits of presence.
      have run := later room (none :: before)
      rw [reverse_cons, append_assoc] at run
      exact run
    | some v =>
      rw [Wire.items] at written
      obtain ⟨part, first, written⟩ := Except.bind_eq_ok.mp written
      obtain ⟨-, w, same, head⟩ := each v mem_cons_self part first
      obtain ⟨items', bytes, related, rfl, later⟩ := others written
      refine ⟨some w :: items', part.2 ++ bytes, .cons (.some same) related, by simp, fun room before => ?_⟩
      -- The element is read first, and then the others behind it.
      have run := later room (some w :: before)
      rw [reverse_cons, append_assoc] at run
      exact Takes.bind (head room) run

/-- What is written of the entries of a map is read as related ones if what is written of each value is. -/
theorem entries_take {site : Site} {entries : List (String × Option Value)}
    (sorted : (entries.map Prod.fst).Pairwise (· < ·))
    (each : ∀ k v, (k, some v) ∈ entries → ValueTakes F writer reader rel site false kind depth v)
    {out : List UInt8} (written : Wire.entries site entries kind depth out = .ok body) :
    ∃ entries' bytes, List.Forall₂ (Entries.Rel rel) entries entries' ∧ body = out.reverse ++ bytes ∧
      ∀ room before, (∀ e ∈ before, ∀ e' ∈ entries, e.1 < e'.1) →
        Takes (Reader.entries (Reader.value F reader room kind) (entries.map fun e => e.2.isSome) before) bytes
          (Level writer reader depth room) ((∀ e ∈ entries, e.1.utf8ByteSize ≤ Limits.textBytes) ∧
            readable.entries entries (kind, false, depth)) (before ++ entries') := by
  induction entries generalizing out with
  | nil =>
    cases written
    refine ⟨[], [], .nil, by simp, fun room before _ => ?_⟩
    rw [append_nil]
    exact (Takes.pure before).congr fun _ => by simp [Requirement.entries, readable]
  | cons e rest ih =>
    rw [map_cons, pairwise_cons] at sorted
    have others := @ih sorted.2 fun k v member => each k v (.tail _ member)
    -- The key of the entry is read before its value, so that the limits of both come before those of the others.
    rcases e with ⟨k, _ | v⟩
    · obtain ⟨entries', bytes, related, rfl, later⟩ := others written
      refine ⟨(k, none) :: entries', Wire.text k ++ bytes, .cons (.mk k .none) related, by simp,
        fun room before lower => ?_⟩
      -- The key is greater than all that were read, so its entry goes last.
      have run := later room (before ++ [(k, none)]) (lower_append lower sorted.1)
      rw [append_assoc, ← Entries.insert_of_lt fun e member => lower e member _ mem_cons_self] at run
      refine Takes.congr (Takes.bind (text_takes "map_key" k (by decide)) run) fun _ => ?_
      simp only [Requirement.entries, forall_mem_cons, and_assoc]
    · rw [Wire.entries] at written
      obtain ⟨part, first, written⟩ := Except.bind_eq_ok.mp written
      obtain ⟨-, w, same, head⟩ := each k v mem_cons_self part first
      obtain ⟨entries', bytes, related, rfl, later⟩ := others written
      refine ⟨(k, some w) :: entries', Wire.text k ++ (part.2 ++ bytes), .cons (.mk k (.some same)) related, by simp,
        fun room before lower => ?_⟩
      have run := later room (before ++ [(k, some w)]) (lower_append lower sorted.1)
      rw [append_assoc, ← Entries.insert_of_lt fun e member => lower e member _ mem_cons_self] at run
      refine Takes.congr (Takes.bind (text_takes "map_key" k (by decide)) (Takes.bind (head room) run)) fun _ => ?_
      rw [Requirement.entries, forall_mem_cons, and_assoc]
      exact and_congr_right fun _ => and_left_comm

/-- What is written of a field is read as a related one if what is written of its value is. It has one to four flags. -/
theorem fieldPart_takes {site : Site} {f : Field Value}
    (each : ∀ v, f = .value v → ValueTakes F writer reader rel site true kind depth v) {part : Part}
    (written : fieldPart site kind depth f = .ok part) :
    (1 ≤ part.1.length ∧ part.1.length ≤ 4) ∧ ∃ f', Field.Rel rel f f' ∧ ∀ room,
      TakesField (Reader.value F reader room) kind part (Level writer reader depth room)
        (f.Readable kind depth) f' := by
  cases f with
  | absent =>
    cases written
    exact ⟨by simp, .absent, .absent, fun room => takesField_absent _ _⟩
  | null =>
    cases written
    exact ⟨by simp, .null, .null, fun room => takesField_null _ _⟩
  | value v =>
    -- The value has two flags in front of its own, since it is declared and not null.
    obtain ⟨part, inner, rfl⟩ := Except.map_eq_ok.mp written
    obtain ⟨few, w, same, read⟩ := each v rfl part inner
    refine ⟨⟨by simp, ?_⟩, .value w, .value same, fun room => takesField_value (read room)⟩
    simp only [length_cons]
    omega

/-- A collection that is written has no elements, or not too many of them. -/
theorem of_collection {α : Type} {elements : List α} {flagged : Bool} {present : List Bool}
    {inner : Except EncodeError (List UInt8)} {part : Part}
    (written : (if elements.isEmpty then .ok (emptyPart flagged) else do
      checkItems elements.length
      let body ← inner
      return collectionPart flagged present body) = .ok part) :
    (elements = [] ∧ part = emptyPart flagged) ∨ (elements ≠ [] ∧ elements.length ≤ Limits.collectionItems ∧
      ∃ body, inner = .ok body ∧ part = collectionPart flagged present body) := by
  split at written
  · rename_i none
    cases written
    exact Or.inl ⟨List.isEmpty_iff.mp none, rfl⟩
  · rename_i some
    obtain ⟨_, checked, written⟩ := Except.bind_eq_ok.mp written
    obtain ⟨body, inside, written⟩ := Except.bind_eq_ok.mp written
    cases written
    unfold checkItems at checked
    split at checked
    · cases checked
    · rename_i few
      exact Or.inr ⟨mt List.isEmpty_iff.mpr some, Nat.not_lt.mp few, body, inside, rfl⟩

theorem depth_of_record {r : Record} (written : Wire.record r depth = .ok bytes) : depth ≤ Limits.depth := by
  rcases r with ⟨layout, values⟩
  rw [Wire.record] at written
  split at written
  · cases written
  · rename_i deep
    exact Nat.not_lt.mp deep

section Known

variable (line : Line writer reader) (respects : Respects F writer reader asked rel)
include respects

/-- A reader keeps the bytes of a member that it does not know. Its schema is then another one. -/
theorem forgotten_takes {r : Record} {name : String} {flagged : Bool}
    (member : (writer.member? name r.layout.name).isSome = true) (none : reader.member? name r.layout.name = none)
    (recorded : Wire.record r (depth + 1) = .ok bytes) (limits : Prop) :
    PartTakes F writer reader rel flagged (.openType name) depth ([], text r.layout.name ++ prefixed bytes)
      (.record r) limits := by
  refine plain_takes (respects.forgotten member none recorded) (fun _ _ => rfl) fun room => ?_
  have other : ¬ Level writer reader depth room := by
    rintro ⟨rfl, -⟩
    rw [none] at member
    cases member
  have kept : Takes (valueWith F reader (below F reader room) (.openType name))
      (text r.layout.name ++ prefixed bytes) (Level writer reader depth room)
      (r.layout.name.utf8ByteSize ≤ Limits.textBytes ∧ bytes.length ≤ Limits.snapshotBytes)
      (.unknown ⟨r.layout.name, .binary bytes⟩) := by
    refine (text_takes "type_name" r.layout.name (by decide)).bind ?_
    simp only [none]
    exact (prefixed_takes "thing" bytes (by decide)).map fun body => Value.unknown ⟨r.layout.name, .binary body⟩
  exact kept.congr fun level => absurd level other

/-- What is written of a list is read as a related one if what is written of its elements is. -/
theorem list_takes_of {items : List (Option Value)} (known : (Value.list items).Known writer asked kind)
    (each : ∀ v, some v ∈ items → ∀ kind, v.Known writer asked kind → ∀ site flagged depth,
      ValueTakes F writer reader rel site flagged kind depth v) (site : Site) (flagged : Bool) :
    ValueTakes F writer reader rel site flagged kind depth (.list items) := by
  intro part written
  cases kind with
  | list k =>
    rw [Wire.value] at written
    -- The number is checked first, and then the elements are written.
    rcases of_collection written with ⟨rfl, rfl⟩ | ⟨some, few, body, elements, rfl⟩
    · have nothing (value : Kind → Reader Value) (sharp : Prop) :
          Takes (Reader.items (value k) [] []) [] sharp True [] := Takes.pure []
      have run : PartTakes F writer reader rel flagged (.list k) depth (emptyPart flagged) (.list []) _ :=
        emptyCollection_takes (fun _ _ => rfl) (fun _ => rfl) (respects.list .nil) fun value sharp =>
          list_takes (nothing value sharp)
      simpa [Value.Readable, Requirement.value, Requirement.items, readable] using run
    · have known := Schema.known_conjoins.items_iff.mp known
      obtain ⟨items', bytes, related, rfl, read⟩ :=
        items_take (fun v member => each v member k (known v member) _ _ _) elements
      exact collection_takes (respects.list related) (fun _ _ => rfl) (fun _ => rfl)
        (by simpa using few) (by simpa using some) fun left => list_takes (read left [])
  | _ => simp [Wire.value] at written

/-- What is written of a map is read as a related one if what is written of its values is. -/
theorem map_takes_of {entries : List (String × Option Value)} (known : (Value.map entries).Known writer asked kind)
    (each : ∀ key v, (key, some v) ∈ entries → ∀ kind, v.Known writer asked kind → ∀ site flagged depth,
      ValueTakes F writer reader rel site flagged kind depth v) (site : Site) (flagged : Bool) :
    ValueTakes F writer reader rel site flagged kind depth (.map entries) := by
  intro part written
  cases kind with
  | map k =>
    rw [Wire.value] at written
    rcases of_collection written with ⟨rfl, rfl⟩ | ⟨some, few, body, elements, rfl⟩
    · have nothing (value : Kind → Reader Value) (sharp : Prop) :
          Takes (Reader.entries (value k) [] []) [] sharp True [] := Takes.pure []
      have run : PartTakes F writer reader rel flagged (.map k) depth (emptyPart flagged) (.map []) _ :=
        emptyCollection_takes (fun _ _ => rfl) (fun _ => rfl) (respects.map .nil) fun value sharp =>
          map_takes (nothing value sharp)
      simpa [Value.Readable, Requirement.value, Requirement.entries, readable] using run
    · obtain ⟨sorted, known⟩ := known
      have known := Schema.known_conjoins.entries_iff.mp known
      obtain ⟨entries', bytes, related, rfl, read⟩ := entries_take sorted
        (fun key v member => each key v member k (known key v member) _ _ _) elements
      exact collection_takes (respects.map related) (fun _ _ => rfl) (fun _ => rfl)
        (by simpa using few) (by simpa using some) fun left => map_takes (read left [] (by simp))
  | _ => simp [Wire.value] at written

include line

/-- What is written of a record is read as a related one if what is written of its values is. A reader of the same
schema leaves nothing of it. -/
theorem record_take_of {r : Record} (known : recordKnown writer asked r) (each : FieldsTake F writer reader rel depth r)
    (written : Wire.record r depth = .ok bytes) {there : Layout} (found : reader.type? r.layout.name = some there) :
    ∃ r', rel (.record r) (.record r') ∧ ∀ room, ∃ front behind, bytes = front ++ behind ∧
      (Level writer reader depth room → behind = []) ∧
        Takes (Reader.record F (Reader.value F reader room) there) front
          (Level writer reader depth room) (recordReadable r depth) r' := by
  obtain ⟨writes, sized, isAsked, -⟩ := recordKnown_iff.mp known
  have accepted := line.writes writes
  rw [record_eq] at written
  split at written
  · -- What is nested too deep is not written.
    cases written
  · obtain ⟨parts, ordered, rfl⟩ := Except.map_eq_ok.mp written
    -- Each part goes with the field that the reader gets from it.
    have chosen : ∃ sent, sent.map Prod.fst = parts ∧ List.Forall₂ (fun i s =>
        (1 ≤ s.1.1.length ∧ s.1.1.length ≤ 4) ∧ Field.Rel rel (r.fields[i]?.getD .absent) s.2 ∧ ∀ room,
          TakesAt (Reader.value F reader room) r.layout (Level writer reader depth room)
            (FieldReadable r.layout r.fields depth) i s) r.layout.wireOrder sent := by
      refine exists_sent (Except.forall₂_of_mapM_eq_ok ordered) fun i member part written => ?_
      obtain ⟨info, inside, onWire⟩ := (accepted.wire i).mp member
      rw [partAt_eq (r := ⟨r, sized⟩) inside] at written
      have given : ∀ v, r.fields[i]?.getD .absent = .value v → r.fields[i]? = some (.value v) := by
        cases r.fields[i]? <;> simp
      obtain ⟨flags, f, related, taken⟩ :=
        fieldPart_takes (fun v same => each i info v inside onWire (given v same)) written
      exact ⟨f, flags, related, fun room => ⟨info, inside, fun later => (taken room later).congr fun _ => by
        simp [FieldReadable, inside]⟩⟩
    obtain ⟨sent, rfl, carried⟩ := chosen
    refine ⟨there.receive F (sent.map Prod.snd), ?_, fun room => ?_⟩
    · refine respects.record (r := ⟨r, sized⟩) writes isAsked found ?_
      rw [RecordOf.sent, forall₂_map_left_iff, forall₂_map_right_iff]
      exact carried.imp fun _ _ read => read.2.1
    · have same : Level writer reader depth room → there = r.layout := by
        rintro ⟨rfl, -⟩
        exact Option.some.inj (found.symm.trans writes)
      -- The reader's position at the same place on the wire has the same kind.
      have each : List.Forall₂ (TakesAt (Reader.value F reader room) there (Level writer reader depth room)
          (FieldReadable r.layout r.fields depth)) (there.wireOrder.take sent.length)
          (sent.take there.wireOrder.length) := by
        refine forall₂_of_getElem? (by simp [Nat.min_comm]) fun k j s position here => ?_
        rw [getElem?_take, Option.ite_none_right_eq_some] at position here
        obtain ⟨i, there', -, -, taken⟩ := exists_of_forall₂ carried here.2
        obtain ⟨info, inside, taken⟩ := taken room
        obtain ⟨info', other, inside', inside'', -, kind⟩ := line.aligned writes found there' position.2
        cases inside.symm.trans inside'
        refine ⟨other, inside'', fun flags => kind ▸ (taken flags).congr fun level => ?_⟩
        rw [same level] at position
        cases there'.symm.trans position.2
        exact Iff.rfl
      obtain ⟨front, whole, taken⟩ := record_takes each fun _ s member => by
        obtain ⟨k, found⟩ := mem_iff_getElem?.mp member
        obtain ⟨i, -, flags, -⟩ := exists_of_forall₂ carried found
        exact flags
      refine ⟨front, _, whole, fun level => ?_, taken.congr fun level => ?_⟩
      · rw [same level, carried.length_eq, drop_length, flatMap_nil]
      · rw [same level, ← carried.length_eq, take_length]
        -- The positions of the wire order are those of the fields on the wire.
        rw [recordReadable_iff]
        refine and_congr_right fun _ => ⟨fun all i info found onWire => ?_, fun all i member info found => ?_⟩
        · exact all i ((accepted.wire i).mpr ⟨info, found, onWire⟩) info found
        · obtain ⟨info', found', onWire⟩ := (accepted.wire i).mp member
          cases found.symm.trans found'
          exact all i info found onWire

/-- What is written of a value without parts is read as a related one. -/
theorem scalar_takes {v : Value} (plain : v.isScalar = true) (known : v.Known writer asked kind) (site : Site)
    (flagged : Bool) (depth : Nat) : ValueTakes F writer reader rel site flagged kind depth v := by
  intro part written
  -- A value that has not the shape of its kind is not written.
  cases v <;> cases kind <;> first | (cases plain; done) | (simp [Wire.value] at written; done) | skip
  case bool.bool b =>
    cases written
    -- The value is a flag of a field, and a byte inside a collection.
    refine ⟨by cases flagged <;> simp [boolPart], .bool b, respects.bool b, fun room => ?_⟩
    cases flagged with
    | true => exact fun flags => (bit_takes "bool" b flags).andThen (Takes.pure (Value.bool b, flags))
    | false =>
      rw [value_eq_valueWith]
      exact (bool_takes "bool" b).map Value.bool
  case int.int n =>
    cases written
    exact plain_takes (respects.int n) (fun _ _ => rfl) fun _ => (signed_takes "int" n).map Value.int
  case double.double x =>
    cases written
    exact plain_takes (respects.double x) (fun _ _ => rfl) fun _ => (double_takes "double" x).map Value.double
  case text.text s =>
    obtain ⟨bytes, bounded, rfl⟩ := Except.map_eq_ok.mp written
    -- A text that is too long is not written.
    unfold boundedText at bounded
    split at bounded
    · cases bounded
    · rename_i short
      cases bounded
      refine plain_takes (respects.text s) (fun _ _ => rfl) fun _ => ?_
      exact ((text_takes "text" s (by decide)).congr fun _ => iff_of_true (Nat.not_lt.mp short) trivial).map Value.text
  case enum.enum e name =>
    cases written
    refine plain_takes (respects.enum e) (fun _ _ => rfl) fun _ => enum_takes ?_
    -- A listed number is looked up in the reader's schema, which lists the same.
    rcases known with dynamic | ⟨listed, found, member⟩
    · exact Or.inl dynamic
    · rw [line.enums] at found
      exact Or.inr ⟨listed, found, line.listed found member⟩
  case unknown.openType u name =>
    cases written
    refine plain_takes (respects.unknown u.name u.body) (fun _ _ => rfl) fun _ => ?_
    -- The name is no member for the reader either, which then keeps the bytes of the body.
    refine (text_takes "type_name" u.name (by decide)).bind ?_
    simp only [show reader.member? name u.name = none from line.unknown known]
    exact (prefixed_takes "thing" (unknownBody u.body) (by decide)).map
      fun body => Value.unknown ⟨u.name, .binary body⟩

/-- Whatever names the type of a record in a value, its body is read with the layout that the reader has under that
name. -/
theorem body_takes {r : Record} (known : recordKnown writer asked r)
    (each : FieldsTake F writer reader rel (depth + 1) r) (recorded : Wire.record r (depth + 1) = .ok bytes)
    {there : Layout} (found : reader.type? r.layout.name = some there) :
    ∃ r', rel (.record r) (.record r') ∧ ∀ room,
      Takes (nested F (below F reader room) there) (prefixed bytes) (Level writer reader depth room)
        (r.BodyFits (depth + 1) ∧ recordReadable r (depth + 1)) (.record r') := by
  obtain ⟨r', related, read⟩ := record_take_of line respects known each recorded found
  refine ⟨r', related, fun room => ?_⟩
  have deep := depth_of_record recorded
  have body : Takes (nested F (below F reader room) there) (prefixed bytes)
      (Level writer reader depth room) (bytes.length ≤ Limits.snapshotBytes ∧ recordReadable r (depth + 1))
      (.record r') := by
    cases room with
    | zero => exact nested_takes (fun level => absurd level.2 (by omega)) fun _ none => by cases none
    | succ left =>
      -- A record that is written has room, and its bytes are read with one level less.
      refine nested_takes (fun _ => by simp [below]) fun value member => ?_
      cases member
      obtain ⟨front, behind, whole, nothing, taken⟩ := read left
      exact ⟨front, behind, whole, fun level => nothing (level.below rfl), taken.mono fun level => level.below rfl⟩
  refine body.congr fun _ => and_congr_left fun _ => ⟨fun few bytes' same => ?_, fun few => few bytes recorded⟩
  cases recorded.symm.trans same
  exact few

/-- What is written of a record in a value is read as a related one if what is written of its values is. -/
theorem nested_takes_of {r : Record} (known : (Value.record r).Known writer asked kind)
    (each : recordKnown writer asked r → FieldsTake F writer reader rel (depth + 1) r) (site : Site)
    (flagged : Bool) : ValueTakes F writer reader rel site flagged kind depth (.record r) := by
  intro part written
  cases kind with
  | record name =>
    rw [Wire.value] at written
    split at written
    · -- The kind names the type, so the name is not written.
      rename_i named
      subst named
      obtain ⟨bytes, recorded, rfl⟩ := Except.map_eq_ok.mp written
      obtain ⟨there, found⟩ := line.type?_of_known known
      obtain ⟨r', related, read⟩ := body_takes line respects known (each known) recorded found
      refine plain_takes related (fun _ _ => rfl) fun room => ?_
      simp only [valueWith, found]
      exact read room
    · cases written
  | openType name =>
    rw [Wire.value] at written
    obtain ⟨bytes, recorded, rfl⟩ := Except.map_eq_ok.mp written
    obtain ⟨member, known⟩ := known
    cases found : reader.member? name r.layout.name with
    | some there =>
      -- The reader knows the member, too.
      have type := Schema.type?_of_member? found
      obtain ⟨r', related, read⟩ := body_takes line respects known (each known) recorded type
      refine plain_takes related (fun _ _ => rfl) fun room => ?_
      refine (text_takes "type_name" r.layout.name (by decide)).bind ?_
      simp only [found]
      exact read room
    | none => exact forgotten_takes respects member found recorded _
  | _ => simp [Wire.value] at written

/-- What is written of a value is read as a related one. -/
theorem value_takes (v : Value) (kind : Kind) (known : v.Known writer asked kind) (site : Site) (flagged : Bool)
    (depth : Nat) : ValueTakes F writer reader rel site flagged kind depth v := by
  induction v using Value.induct generalizing kind site flagged depth with
  | scalar v plain => exact scalar_takes line respects plain known site flagged depth
  | record r ih =>
    -- The fields on the wire of a known record hold known values.
    refine nested_takes_of line respects known (fun known i info v inside onWire field => ?_) site flagged
    obtain ⟨-, -, -, values⟩ := recordKnown_iff.mp known
    exact ih v (mem_of_getElem? field) info.kind (values i info v inside onWire field) _ _ _
  | list items ih => exact list_takes_of respects known ih site flagged
  | map entries ih => exact map_takes_of respects known ih site flagged

/-- What is written of a record is read as a related one. -/
theorem record_transfers {r : Record} (known : recordKnown writer asked r) (written : Wire.record r depth = .ok bytes)
    {there : Layout} (found : reader.type? r.layout.name = some there) :
    ∃ r', rel (.record r) (.record r') ∧ ∀ room, ∃ front behind, bytes = front ++ behind ∧
      (Level writer reader depth room → behind = []) ∧
        Takes (Reader.record F (Reader.value F reader room) there) front
          (Level writer reader depth room) (recordReadable r depth) r' := by
  obtain ⟨-, -, -, values⟩ := recordKnown_iff.mp known
  exact record_take_of line respects known (fun i info v inside onWire field =>
    value_takes line respects v info.kind (values i info v inside onWire field) _ _ _) written found

end Known

/-- A record that was sent and could be read is related to the one that was read. -/
theorem Line.decode_transfers (line : Line writer reader) (respects : Respects F writer reader asked rel)
    {t t' : Record} (known : recordKnown writer asked t) (written : encode t = .ok bytes)
    (read : decode F reader t.layout.name bytes = .ok t') : rel (.record t) (.record t') := by
  obtain ⟨there, found⟩ := line.type?_of_known known
  obtain ⟨r', related, same⟩ := record_transfers line respects known written found
  unfold decode decodeAs Reader.run topRecord at read
  rw [found] at read
  simp only at read
  -- Nothing follows the record, and what the reader leaves of it does not matter.
  split at read
  · rename_i left result
    cases read
    obtain ⟨front, behind, rfl, -, taken⟩ := same Limits.depth
    rwa [(taken.recovers _ _ _ result).1]
  · cases read

theorem decode_transfers (channel : Channel writer reader) (respects : Respects F writer reader asked rel)
    {t t' : Record} (known : recordKnown writer asked t) (written : encode t = .ok bytes)
    (read : decode F reader t.layout.name bytes = .ok t') : rel (.record t) (.record t') :=
  channel.line.decode_transfers respects known written read

end Transfer

end Wire

end EntityGraph
