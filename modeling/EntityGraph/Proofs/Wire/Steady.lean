import EntityGraph.Proofs.Schema.Closure
import EntityGraph.Proofs.Wire.Compatible
import EntityGraph.Wire.Decode

/-! What readers do with any bytes: more bytes behind those that were read change nothing, and a type that is not in the
schema is never asked for. -/

namespace EntityGraph.Wire.Reader

variable {kind : Kind} {layout : Layout}

/-- More bytes at the end change neither what the reader gives nor why it refuses, unless it refused for want of bytes.
It never misses a type. -/
structure Steady {α : Type} (reader : Reader α) : Prop where
  gives : ∀ {bytes a left} (rest), reader bytes = .ok a left → reader (bytes ++ rest) = .ok a (left ++ rest)
  refuses : ∀ {bytes e left} (rest), reader bytes = .error e left →
    (∃ context, e = .unexpectedEnd context) ∨ ∃ left', reader (bytes ++ rest) = .error e left'
  misses : ∀ bytes name left, reader bytes ≠ .error (.unknownType name) left

namespace Steady

variable {α β : Type} {reader : Reader α} {next : α → Reader β}

/-- What is given without reading does not depend on the bytes. -/
theorem pure (a : α) : Steady (Pure.pure a : Reader α) where
  gives rest run := by
    cases run
    rfl
  refuses rest run := by cases run
  misses bytes name left run := by cases run

/-- A refusal for another reason than a missing type does not depend on the bytes. -/
theorem throw {e : DecodeError} (other : ∀ name, e ≠ .unknownType name) : Steady (MonadExcept.throw e : Reader α) where
  gives rest run := by cases run
  refuses rest run := by
    cases run
    exact Or.inr ⟨_, rfl⟩
  misses bytes name left run := by
    cases run
    exact other name rfl

/-- A reader after a reader is steady if both are. -/
theorem bind (first : Steady reader) (second : ∀ a, Steady (next a)) : Steady (reader >>= next) where
  gives rest run := by
    obtain ⟨a, middle, result, run⟩ := EStateM.bind_eq_ok.mp run
    exact EStateM.bind_eq_ok.mpr ⟨a, _, first.gives rest result, (second a).gives rest run⟩
  refuses {bytes e left} rest run := by
    -- Either the first reader refuses, or it gives and the second one refuses.
    cases result : reader bytes with
    | error e' left' =>
      obtain ⟨rfl, rfl⟩ : e' = e ∧ left' = left := by simpa [Bind.bind, EStateM.bind, result] using run
      refine (first.refuses rest result).imp_right ?_
      rintro ⟨left', persists⟩
      exact ⟨left', by simp [Bind.bind, EStateM.bind, persists]⟩
    | ok a middle =>
      have run : next a middle = .error e left := by simpa [Bind.bind, EStateM.bind, result] using run
      refine ((second a).refuses rest run).imp_right ?_
      rintro ⟨left', persists⟩
      exact ⟨left', by simp [Bind.bind, EStateM.bind, first.gives rest result, persists]⟩
  misses bytes name left run := by
    cases result : reader bytes with
    | error e' left' =>
      obtain ⟨rfl, rfl⟩ : e' = .unknownType name ∧ left' = left := by
        simpa [Bind.bind, EStateM.bind, result] using run
      exact first.misses _ _ _ result
    | ok a middle => exact (second a).misses middle name left (by simpa [Bind.bind, EStateM.bind, result] using run)

/-- What becomes of the result changes nothing. -/
theorem map (f : α → β) (first : Steady reader) : Steady (f <$> reader) := by
  rw [map_eq_pure_bind]
  exact first.bind fun a => pure (f a)

/-- A choice that the bytes do not make changes nothing. -/
theorem ite {condition : Prop} [Decidable condition] {yes no : Reader α} (first : Steady yes) (second : Steady no) :
    Steady (if condition then yes else no) := by
  split
  · exact first
  · exact second

/-- A reader that was given bytes of its own takes none. -/
theorem within (alone : Steady reader) (bytes : List UInt8) : Steady (within bytes reader) := by
  unfold Reader.within
  cases result : reader bytes with
  | ok a left => exact pure a
  | error e left =>
    refine throw fun name same => alone.misses bytes name left ?_
    rw [result, same]

end Steady

open Steady

/-- A byte is there or not. -/
theorem byte_steady (context : String) : Steady (byte context) where
  gives {bytes a left} rest run := by
    cases bytes with
    | nil => cases run
    | cons b more =>
      cases run
      rfl
  refuses {bytes e left} rest run := by
    cases bytes with
    | nil =>
      cases run
      exact Or.inl ⟨context, rfl⟩
    | cons b more => cases run
  misses bytes name left run := by cases bytes <;> cases run

/-- There are enough bytes or not. -/
theorem take_steady (n : Nat) (context : String) : Steady (take n context) where
  gives {bytes a left} rest run := by
    simp only [take] at run ⊢
    split at run
    · cases run
    · -- There are enough bytes, and those behind them do not matter.
      rename_i enough
      cases run
      have many : n ≤ bytes.length := by
        rw [List.length_take] at enough
        omega
      rw [List.take_append_of_le_length many, List.drop_append_of_le_length many, if_neg enough]
  refuses {bytes e left} rest run := by
    simp only [take] at run
    split at run
    · cases run
      exact Or.inl ⟨context, rfl⟩
    · cases run
  misses bytes name left run := by
    simp only [take] at run
    split at run <;> cases run

/-- A truth value is one byte. -/
theorem bool_steady (context : String) : Steady (bool context) :=
  (byte_steady context).bind fun _ => .ite (pure _) (.ite (pure _) (throw (by simp)))

/-- The last group of an integer says that none follows. -/
theorem groups_steady (context : String) (left : Nat) : Steady (groups context left) := by
  induction left with
  | zero => exact throw (by simp)
  | succ left ih =>
    exact (byte_steady context).bind fun b =>
      .ite (throw (by simp)) (.ite (pure _) (ih.bind fun high => pure _))

/-- A length is an integer. -/
theorem length_steady (limit : Nat) (field : String) : Steady (length limit field) :=
  (groups_steady field _).bind fun n => .ite (throw (by simp)) (pure n)

/-- Bytes with their length in front of them. -/
theorem prefixed_steady (limit : Nat) (field : String) : Steady (prefixed limit field) :=
  (length_steady limit field).bind fun n => take_steady n field

/-- A text is bytes with their length in front of them. -/
theorem text_steady (limit : Nat) (field : String) : Steady (text limit field) := by
  refine (prefixed_steady limit field).bind fun bytes => ?_
  split
  · exact pure _
  · exact throw (by simp)

/-- Flags were read before. -/
theorem bit_steady (context : String) (flags : List Bool) : Steady (bit context flags) := by
  cases flags with
  | nil => exact throw (by simp)
  | cons b rest => exact pure (b, rest)

/-- A number, with a name behind it if it is not listed. -/
theorem enum_steady (s : Schema) (name : String) : Steady (enum s name) := by
  refine (groups_steady "enum" _).bind fun id => ?_
  refine .ite ((text_steady _ _).bind fun value => pure _) ?_
  split
  · exact throw (by simp)
  · refine .ite ?_ (throw (by simp))
    split
    · exact pure _
    · exact throw (by simp)

section Collection

variable {item : Reader Value} (each : Steady item)
include each

omit each in
/-- The bits of presence fill whole bytes. -/
theorem presence_steady (count : Nat) (hasNull : Bool) : Steady (presence count hasNull) :=
  .ite ((take_steady _ _).bind fun _ => pure _) (pure _)

/-- The elements that are present stand one after the other. -/
theorem items_steady (present : List Bool) (before : List (Option Value)) : Steady (items item present before) := by
  induction present generalizing before with
  | nil => exact pure _
  | cons here rest ih =>
    cases here with
    | true => exact each.bind fun v => ih _
    | false => exact ih _

/-- A key stands in front of every value. -/
theorem entries_steady (present : List Bool) (before : List (String × Option Value)) :
    Steady (entries item present before) := by
  induction present generalizing before with
  | nil => exact pure _
  | cons here rest ih =>
    cases here with
    | true => exact (text_steady _ _).bind fun key => each.bind fun v => ih _
    | false => exact (text_steady _ _).bind fun key => ih _

/-- A list is its bits of presence and its elements. -/
theorem list_steady (count : Nat) (hasNull : Bool) : Steady (list item count hasNull) :=
  (presence_steady count hasNull).bind fun present => (items_steady each present []).map Value.list

/-- A map is its bits of presence and its entries. -/
theorem map_steady (count : Nat) (hasNull : Bool) : Steady (map item count hasNull) :=
  (presence_steady count hasNull).bind fun present => (entries_steady each present []).map Value.map

end Collection

variable {value : Kind → Reader Value} {s : Schema}

/-- In a field of its own a collection has its length behind its flags. -/
theorem fieldCollection_steady (name : String) (empty : Value) {sized : Nat → Bool → Reader Value}
    (each : ∀ count hasNull, Steady (sized count hasNull)) (flags : List Bool) :
    Steady (fieldCollection name empty sized flags) :=
  (bit_steady _ _).bind fun _ => .ite ((bit_steady _ _).bind fun _ => (length_steady _ _).bind fun count =>
    (each count _).bind fun _ => pure _) (pure _)

/-- Inside a value a collection has its length, and whether some elements are null. -/
theorem nestedCollection_steady (name : String) {deeper : Option (Nat → Bool → Reader Value)}
    (each : ∀ sized ∈ deeper, ∀ count hasNull, Steady (sized count hasNull)) :
    Steady (nestedCollection name deeper) := by
  have head : Steady (collectionHead name) :=
    (length_steady _ _).bind fun count => .ite (pure _) ((bool_steady _).bind fun hasNull => pure _)
  refine head.bind fun _ => ?_
  cases deeper with
  | none => exact throw (by simp)
  | some sized => exact each sized rfl _ _

/-- The value of a field is read steadily if values of all kinds are that resolve. -/
theorem fieldValue_steady (each : ∀ kind : Kind, kind.Resolves s → Steady (value kind))
    (known : kind.Resolves s) (flags : List Bool) : Steady (fieldValue value kind flags) := by
  unfold fieldValue
  split
  · exact (bit_steady _ _).bind fun _ => pure _
  · exact fieldCollection_steady _ _ (list_steady (each _ (by exact known))) flags
  · exact fieldCollection_steady _ _ (map_steady (each _ (by exact known))) flags
  · exact (each kind known).bind fun v => pure _

/-- Fields are read one after the other, if their kinds resolve. -/
theorem fields_steady (each : ∀ kind : Kind, kind.Resolves s → Steady (value kind)) (positions : List Nat)
    {draft : Draft} (known : ∀ info ∈ draft.layout.fields, info.kind.Resolves s) (flags : List Bool) :
    Steady (fields value positions flags draft) := by
  induction positions generalizing draft flags with
  | nil => exact pure draft
  | cons i rest ih =>
    unfold fields
    split
    · exact ih known flags
    · rename_i info found
      have inner := fieldValue_steady each (known info (List.mem_of_getElem? found))
      have field : Steady (field value info.kind flags) :=
        (bit_steady _ _).bind fun _ => .ite ((bit_steady _ _).bind fun _ =>
          .ite ((inner _).bind fun _ => pure _) (pure _)) (pure _)
      exact field.bind fun _ => ih (by exact known) _

/-- A record is its flags and its fields. -/
theorem record_steady (each : ∀ kind : Kind, kind.Resolves s → Steady (value kind)) (F : Formulas)
    (known : ∀ info ∈ layout.fields, info.kind.Resolves s) : Steady (record F value layout) :=
  (length_steady _ _).bind fun count => .ite (pure _) ((length_steady _ _).bind fun size =>
    .ite (throw (by simp)) ((take_steady _ _).bind fun flags =>
      (fields_steady each _ (by exact known) _).bind fun draft => pure _))

section Closed

variable {serial : Nat} {d : Declarations} (compiled : Schema.compile serial d = .ok s) (F : Formulas)
include compiled

/-- A value is read steadily if what is nested in it is. -/
theorem valueWith_steady {deeper : Option (Kind → Reader Value)}
    (each : ∀ value ∈ deeper, ∀ kind : Kind, kind.Resolves s → Steady (value kind))
    (known : kind.Resolves s) : Steady (valueWith F s deeper kind) := by
  -- The bytes of a nested record are read by themselves.
  have nested : ∀ {name layout}, s.type? name = some layout → Steady (nested F deeper layout) := by
    intro name layout found
    refine (prefixed_steady _ _).bind fun body => ?_
    cases deeper with
    | none => exact throw (by simp)
    | some value =>
      have inner := record_steady (each value rfl) F (Schema.resolves_of_type? compiled found)
      exact (inner.within body).bind fun r => pure _
  cases kind with
  | bool => exact (bool_steady _).map Value.bool
  | int => exact ((groups_steady _ _).map unzigzag).map Value.int
  | double => exact ((take_steady _ _).map _).map Value.double
  | text => exact (text_steady _ _).map Value.text
  | enum name => exact enum_steady s name
  | record name =>
    obtain ⟨layout, found⟩ := known
    simp only [valueWith, found]
    exact nested found
  | openType name =>
    refine (text_steady _ _).bind fun typeName => ?_
    split
    · rename_i layout member
      exact nested (Schema.type?_of_member? member)
    · exact (prefixed_steady _ _).bind fun body => pure _
  | list element =>
    refine nestedCollection_steady _ fun sized there => ?_
    obtain ⟨value, member, rfl⟩ := Option.map_eq_some_iff.mp there
    exact list_steady (each value member element known)
  | map element =>
    refine nestedCollection_steady _ fun sized there => ?_
    obtain ⟨value, member, rfl⟩ := Option.map_eq_some_iff.mp there
    exact map_steady (each value member element known)

/-- However much room is left, values are read steadily. -/
theorem value_steady (room : Nat) (known : kind.Resolves s) : Steady (Reader.value F s room kind) := by
  induction room generalizing kind with
  | zero => exact valueWith_steady compiled F (fun _ none => by cases none) known
  | succ room ih =>
    refine valueWith_steady compiled F (fun value here kind known => ?_) known
    cases here
    exact ih known

/-- So is a record of the schema. -/
theorem topRecord_steady {name : String} (found : s.type? name = some layout) : Steady (topRecord F s layout) :=
  record_steady (fun _ => value_steady compiled F Limits.depth) F
    (Schema.resolves_of_type? compiled found)

end Closed

end EntityGraph.Wire.Reader
