import EntityGraph.Proofs.Wire.RoundTrip
import EntityGraph.Proofs.Wire.Steady

/-! What is written says where it ends: a reader stops exactly behind it, and misses what is cut off. -/

namespace EntityGraph.Wire

open List

open Reader

variable {body : List UInt8} {part : Part}

/-- A reader that gets through these bytes gives one result, whatever follows them, and leaves what follows. -/
def Reader.Ends {α : Type} (reader : Reader α) (bytes : List UInt8) : Prop :=
  ∃ a, Takes reader bytes False True a

section Ends

variable {α β : Type} {reader : Reader α} {next : α → Reader β} {bytes more : List UInt8} {limits : Prop} {a : α}

theorem Reader.Takes.ends (taken : Takes reader bytes False limits a) : Ends reader bytes :=
  ⟨a, taken.congr False.elim⟩

theorem Reader.Takes.followed (first : Takes reader bytes False limits a) (second : Ends (next a) more) :
    Ends (reader >>= next) (bytes ++ more) := by
  obtain ⟨b, second⟩ := second
  exact (first.bind second).ends

end Ends

section Collection

variable {item : Reader Value} {kind : Kind} {site : Site} {depth : Nat}
  (each : ∀ v part, Wire.value site false v kind depth = .ok part → Ends item part.2) {out : List UInt8}
include each

theorem items_end {items : List (Option Value)}
    (written : Wire.items site items kind depth out = .ok body) : ∃ bytes, body = out.reverse ++ bytes ∧
      ∀ before, Ends (Reader.items item (items.map Option.isSome) before) bytes := by
  induction items generalizing out with
  | nil =>
    cases written
    exact ⟨[], by simp, fun before => (Takes.pure before.reverse).ends⟩
  | cons o rest ih =>
    cases o with
    | none =>
      obtain ⟨bytes, rfl, later⟩ := ih written
      exact ⟨bytes, rfl, fun before => later _⟩
    | some v =>
      rw [Wire.items] at written
      obtain ⟨part, first, written⟩ := Except.bind_eq_ok.mp written
      obtain ⟨w, head⟩ := each v part first
      obtain ⟨bytes, rfl, later⟩ := ih written
      exact ⟨part.2 ++ bytes, by simp, fun before => head.followed (later _)⟩

theorem entries_end {entries : List (String × Option Value)}
    (written : Wire.entries site entries kind depth out = .ok body) : ∃ bytes, body = out.reverse ++ bytes ∧
      ∀ before, Ends (Reader.entries item (entries.map fun e => e.2.isSome) before) bytes := by
  induction entries generalizing out with
  | nil =>
    cases written
    exact ⟨[], by simp, fun before => (Takes.pure before).ends⟩
  | cons e rest ih =>
    rcases e with ⟨k, _ | v⟩
    · obtain ⟨bytes, rfl, later⟩ := ih written
      exact ⟨Wire.text k ++ bytes, by simp, fun before => (text_takes "map_key" k (by decide)).followed (later _)⟩
    · rw [Wire.entries] at written
      obtain ⟨part, first, written⟩ := Except.bind_eq_ok.mp written
      obtain ⟨w, head⟩ := each v part first
      obtain ⟨bytes, rfl, later⟩ := ih written
      exact ⟨Wire.text k ++ (part.2 ++ bytes), by simp, fun before =>
        (text_takes "map_key" k (by decide)).followed (head.followed (later _))⟩

end Collection

section Part

variable {F : Formulas} {s : Schema} {kind : Kind} {flagged : Bool}

/-- A record inside a value ends where its length says, whatever it is read as. -/
theorem nested_ends (deeper : Option (Kind → Reader Value)) (layout : Layout) (bytes : List UInt8) :
    Ends (nested F deeper layout) (prefixed bytes) := by
  rw [← append_nil (prefixed bytes)]
  refine (prefixed_takes "thing" bytes (by decide)).followed ?_
  cases deeper with
  | none => exact (Takes.throw _ _ (.list [])).ends
  | some value =>
    -- The record is read by itself, so what is read does not depend on what follows.
    have alone : Ends (within bytes (Reader.record F value layout)) [] := by
      unfold within
      cases Reader.record F value layout bytes with
      | ok r _ => exact (Takes.pure r).ends
      | error e _ => exact (Takes.throw e [] ⟨layout, []⟩).ends
    obtain ⟨r, alone⟩ := alone
    exact (alone.map Value.record).ends

/-- The part of a value is read to its end, in a field of its own or inside a collection. -/
def EndsPart (value : Kind → Reader Value) (flagged : Bool) (kind : Kind) (part : Part) : Prop :=
  ∃ v, TakesPart value flagged kind part False True v

theorem plain_ends {bytes : List UInt8}
    (unflagged : ∀ value flags, fieldValue value kind flags = value kind >>= fun v => pure (v, flags))
    (inner : ∀ deeper, Ends (valueWith F s deeper kind) bytes) (room : Nat) :
    EndsPart (Reader.value F s room) flagged kind ([], bytes) := by
  rw [value_eq_valueWith]
  obtain ⟨v, taken⟩ := inner (below F s room)
  exact ⟨v, takesPart_plain (unflagged _) taken⟩

variable {name : String} {empty : Value} {sized : (Kind → Reader Value) → Nat → Bool → Reader Value}
  (own : ∀ value flags, fieldValue value kind flags = fieldCollection name empty (sized value) flags)
  (inside : ∀ deeper, valueWith F s deeper kind = nestedCollection name (deeper.map sized))
include own inside

theorem collection_ends {present : List Bool} (few : present.length ≤ Limits.collectionItems) (some : present ≠ [])
    (inner : ∀ room, Ends (sized (Reader.value F s room) present.length (!present.all id)) (bitmap present ++ body))
    (room : Nat) : EndsPart (Reader.value F s room) flagged kind (collectionPart flagged present body) := by
  cases flagged with
  | true =>
    obtain ⟨v, read⟩ := inner room
    refine ⟨v, fun flags => ?_⟩
    rw [own]
    exact fieldCollection_takes few empty read flags
  | false =>
    change Ends (Reader.value F s room kind) _
    rw [value_eq_valueWith, inside]
    have nested : ∃ v, ∀ read ∈ (below F s room).map sized,
        Takes (read present.length (!present.all id)) (bitmap present ++ body) False True v := by
      cases room with
      | zero => exact ⟨empty, fun _ none => by cases none⟩
      | succ left => exact (inner left).imp fun v read _ member => by cases member; exact read
    obtain ⟨v, nested⟩ := nested
    exact (nestedCollection_takes few some nested).ends

theorem emptyCollection_ends (inner : ∀ value, Takes (sized value 0 false) [] False True empty) (room : Nat) :
    EndsPart (Reader.value F s room) flagged kind (emptyPart flagged) := by
  cases flagged with
  | true =>
    refine ⟨empty, fun flags => ?_⟩
    rw [own]
    exact fieldCollection_takes_empty empty flags
  | false =>
    change Ends (Reader.value F s room kind) _
    rw [value_eq_valueWith, inside]
    refine ⟨empty, (nestedCollection_takes_empty fun read member => ?_).congr False.elim⟩
    obtain ⟨value, -, rfl⟩ := Option.map_eq_some_iff.mp member
    exact inner value

end Part

/-- The number of a value says whether its name follows, and nothing follows a number that is not listed. -/
theorem enum_ends (s : Schema) (name : String) (e : EnumValue) : Ends (Reader.enum s name) (Wire.enum e) := by
  refine (varint_takes "enum" e.id.toNat).followed ?_
  by_cases dynamic : e.id = 0
  · simp only [dynamic, EnumValue.isDynamic, UInt32.toNat_zero, beq_self_eq_true, if_true]
    exact ((text_takes "enum" e.name (by decide)).map fun value => Value.enum (.dynamic value)).ends
  · have nonzero : e.id.toNat ≠ 0 := fun zero => dynamic (UInt32.toNat_inj.mp zero)
    have refused (e : DecodeError) : Ends (throw e) [] := (Takes.throw e [] (Value.list [])).ends
    simp only [nonzero, EnumValue.isDynamic, beq_iff_eq, dynamic, if_false]
    split
    · exact refused _
    · split
      · split
        · exact (Takes.pure _).ends
        · exact refused _
      · exact refused _

/-- What is written of a value of a kind is read to its end by every reader of that kind. -/
theorem value_ends (F : Formulas) (s : Schema) {kind : Kind} {v : Value} {site : Site} {flagged : Bool}
    {depth : Nat} (written : Wire.value site flagged v kind depth = .ok part) (room : Nat) :
    EndsPart (Reader.value F s room) flagged kind part := by
  -- The induction is on the kind, since a nested record is passed over as a whole.
  induction kind generalizing v flagged depth part room with
  | bool =>
    cases v <;> simp only [Wire.value, reduceCtorEq] at written
    rename_i b
    cases written
    refine ⟨.bool b, ?_⟩
    cases flagged with
    | true => exact fun flags => (bit_takes "bool" b flags).andThen (Takes.pure (Value.bool b, flags))
    | false =>
      rw [value_eq_valueWith]
      exact (bool_takes "bool" b).map Value.bool
  | int =>
    cases v <;> simp only [Wire.value, reduceCtorEq] at written
    cases written
    refine plain_ends (fun _ _ => rfl) (fun _ => ?_) room
    exact ((signed_takes "int" _).map Value.int).ends
  | double =>
    cases v <;> simp only [Wire.value, reduceCtorEq] at written
    cases written
    refine plain_ends (fun _ _ => rfl) (fun _ => ?_) room
    exact ((double_takes "double" _).map Value.double).ends
  | text =>
    cases v <;> simp only [Wire.value, reduceCtorEq] at written
    rename_i s
    obtain ⟨bytes, bounded, rfl⟩ := Except.map_eq_ok.mp written
    unfold boundedText at bounded
    split at bounded
    · cases bounded
    · cases bounded
      refine plain_ends (fun _ _ => rfl) (fun _ => ?_) room
      exact ((text_takes "text" s (by decide)).map Value.text).ends
  | enum name =>
    cases v <;> simp only [Wire.value, reduceCtorEq] at written
    cases written
    refine plain_ends (fun _ _ => rfl) (fun _ => ?_) room
    exact enum_ends s name _
  | record name =>
    cases v <;> simp only [Wire.value, reduceCtorEq] at written
    split at written
    · obtain ⟨bytes, -, rfl⟩ := Except.map_eq_ok.mp written
      refine plain_ends (fun _ _ => rfl) (fun deeper => ?_) room
      rw [valueWith]
      split
      · exact (Takes.throw _ _ (.list [])).ends
      · exact nested_ends deeper _ bytes
    · cases written
  | openType name =>
    -- Whether the type is known or not, its name is followed by the body.
    have tagged : ∀ typeName bytes, EndsPart (Reader.value F s room) flagged (.openType name)
        ([], text typeName ++ prefixed bytes) := by
      intro typeName bytes
      refine plain_ends (fun _ _ => rfl) (fun deeper => (text_takes "type_name" typeName (by decide)).followed ?_) room
      split
      · exact nested_ends deeper _ bytes
      · exact ((prefixed_takes "thing" bytes (by decide)).map fun body => Value.unknown ⟨typeName, .binary body⟩).ends
    cases v <;> simp only [Wire.value, reduceCtorEq] at written
    · obtain ⟨bytes, -, rfl⟩ := Except.map_eq_ok.mp written
      exact tagged _ bytes
    · cases written
      exact tagged _ _
  | list element ih =>
    cases v <;> simp only [Wire.value, reduceCtorEq] at written
    rcases of_collection written with ⟨rfl, rfl⟩ | ⟨some, few, body, elements, rfl⟩
    · exact emptyCollection_ends (fun _ _ => rfl) (fun _ => rfl) (fun value => Takes.pure _) room
    · refine collection_ends (fun _ _ => rfl) (fun _ => rfl) (by simpa using few) (by simpa using some) (fun room => ?_)
        room
      obtain ⟨bytes, rfl, read⟩ := items_end (fun v part written => ih written room) elements
      obtain ⟨vs, read⟩ := read []
      exact (list_takes read).ends
  | map element ih =>
    cases v <;> simp only [Wire.value, reduceCtorEq] at written
    rcases of_collection written with ⟨rfl, rfl⟩ | ⟨some, few, body, elements, rfl⟩
    · exact emptyCollection_ends (fun _ _ => rfl) (fun _ => rfl) (fun value => Takes.pure _) room
    · refine collection_ends (fun _ _ => rfl) (fun _ => rfl) (by simpa using few) (by simpa using some) (fun room => ?_)
        room
      obtain ⟨bytes, rfl, read⟩ := entries_end (fun v part written => ih written room) elements
      obtain ⟨es, read⟩ := read []
      exact (map_takes read).ends

/-- What is written of a field is read to its end if what is written of its value is. -/
theorem fieldPart_ends {value : Kind → Reader Value} {site : Site} {kind : Kind} {depth : Nat} {f : Field Value}
    (each : ∀ v part, Wire.value site true v kind depth = .ok part → EndsPart value true kind part)
    (written : fieldPart site kind depth f = .ok part) : ∃ f', TakesField value kind part False True f' := by
  cases f with
  | absent =>
    cases written
    exact ⟨.absent, takesField_absent _ _⟩
  | null =>
    cases written
    exact ⟨.null, takesField_null _ _⟩
  | value v =>
    obtain ⟨part, inner, rfl⟩ := Except.map_eq_ok.mp written
    obtain ⟨w, read⟩ := each v part inner
    exact ⟨.value w, takesField_value read⟩

/-- A record is read to its end with its own layout. -/
theorem record_ends {F : Formulas} {s : Schema} {r : SizedRecord} {depth room : Nat} {bytes : List UInt8}
    (accepted : r.layout.Accepted) (written : Wire.record r depth = .ok bytes) :
    Ends (Reader.record F (Reader.value F s room) r.layout) bytes := by
  rw [record_eq] at written
  split at written
  · cases written
  · obtain ⟨parts, ordered, rfl⟩ := Except.map_eq_ok.mp written
    have chosen : ∃ sent, sent.map Prod.fst = parts ∧ List.Forall₂ (TakesAt (Reader.value F s room) r.layout
        False fun _ => True) r.layout.wireOrder sent := by
      refine exists_sent (Except.forall₂_of_mapM_eq_ok ordered) fun i member part written => ?_
      obtain ⟨info, inside, -⟩ := (accepted.wire i).mp member
      rw [partAt_eq inside] at written
      obtain ⟨f, read⟩ := fieldPart_ends (fun v part written => value_ends F s written room) written
      exact ⟨f, info, inside, read⟩
    obtain ⟨sent, rfl, each⟩ := chosen
    have count := each.length_eq
    have whole : List.Forall₂ (TakesAt (Reader.value F s room) r.layout False fun _ => True)
        (r.layout.wireOrder.take sent.length) (sent.take r.layout.wireOrder.length) := by
      rwa [take_of_length_le count.le, take_of_length_le count.ge]
    obtain ⟨front, assembled, taken⟩ := record_takes whole False.elim
    rw [assembled, count, drop_length, flatMap_nil, append_nil]
    exact taken.ends

/-- The encoding of a record says where it ends. If it can be read at all, a reader gives the same record whatever
follows, and stops right behind it. Nothing that is cut off anywhere is accepted: the reader misses what is not
there. -/
theorem decode_delimited {serial : Nat} {d : Declarations} {s : Schema} (compiled : Schema.compile serial d = .ok s)
    (F : Formulas) {t : SizedRecord} {t' : Record} {bytes : List UInt8}
    (type : s.type? t.layout.name = some t.layout) (written : encode t = .ok bytes)
    (read : decode F s t.layout.name bytes = .ok t') :
    (∀ rest, topRecord F s t.layout (bytes ++ rest) = .ok t' rest) ∧
      ∀ front, front <+: bytes → front ≠ bytes →
        ∃ context, decode F s t.layout.name front = .error (.unexpectedEnd context) := by
  have steady := topRecord_steady compiled F type
  obtain ⟨_, taken⟩ : Ends (topRecord F s t.layout) bytes :=
    record_ends (Schema.accepted_of_type? compiled type) written
  have runs : ∀ bytes, decode F s t.layout.name bytes = (topRecord F s t.layout).run bytes := by
    intro bytes
    rw [decode, type]
    rfl
  -- Alone the bytes are read to the end, since a reader that gets through them leaves what follows.
  have alone : topRecord F s t.layout bytes = .ok t' [] := by
    rw [runs, Reader.run] at read
    split at read
    · rename_i left result
      cases read
      obtain ⟨-, rfl⟩ := taken.recovers [] _ left (by rwa [append_nil])
      exact result
    · cases read
  refine ⟨fun rest => by simpa using steady.gives rest alone, ?_⟩
  rintro front ⟨rest, rfl⟩ cut
  rw [runs, Reader.run]
  cases result : topRecord F s t.layout front with
  | ok r left =>
    -- A record that ends early would leave the rest.
    have more := steady.gives rest result
    rw [alone] at more
    obtain ⟨-, empty⟩ : t' = r ∧ [] = left ++ rest := by simpa using more
    have nothing : rest = [] := (append_eq_nil_iff.mp empty.symm).2
    exact absurd (by rw [nothing, append_nil]) cut
  | error e left =>
    rcases steady.refuses rest result with ⟨context, rfl⟩ | ⟨left', persists⟩
    · exact ⟨context, rfl⟩
    · rw [alone] at persists
      cases persists

/-- The meeting is read from in front of another byte, and not from its first twelve bytes. -/
theorem decode_delimited_meeting : ∃ t', decode titleFormulas eventSchema "Event" meetingBytes = .ok t' ∧
    topRecord titleFormulas eventSchema eventLayout (meetingBytes ++ [7]) = .ok t' [7] ∧
    ∃ context, decode titleFormulas eventSchema "Event" (meetingBytes.take 12) = .error (.unexpectedEnd context) := by
  have written : encode meeting = .ok meetingBytes := by decide +kernel
  have type : eventSchema.type? "Event" = some eventLayout := by decide +kernel
  obtain ⟨t', read⟩ := Except.exists_of_isOk (x := decode titleFormulas eventSchema "Event" meetingBytes)
    (by decide +kernel)
  obtain ⟨follows, cut⟩ := decode_delimited (t := ⟨meeting, rfl⟩) compile_event titleFormulas type written read
  exact ⟨t', read, follows [7], cut _ ( take_prefix 12 meetingBytes) (by decide)⟩

end EntityGraph.Wire
