import EntityGraph.Proofs.Wire.Transfer

/-! What is written can be read exactly if it keeps the limits of a reader. -/

namespace EntityGraph.Wire

open Reader

variable {s : Schema}

theorem type?_of_recordKnown {asked : Record → Prop} {r : Record}
    (known : recordKnown s asked r) : s.type? r.layout.name = some r.layout :=
  (recordKnown_iff.mp known).1

/-- What is written of a record that is known is taken exactly if it keeps the limits. -/
theorem record_take {F : Formulas} (channel : Channel s s) (r : Record)
    (depth room : Nat) (bytes : List UInt8) (known : recordKnown s (fun _ => True) r)
    (total : depth + room = Limits.depth) (written : Wire.record r depth = .ok bytes) (rest : List UInt8) :
    (∃ r' left, Reader.record F (Reader.value F s room) r.layout (bytes ++ rest) = .ok r' left) ↔
      recordReadable r depth := by
  have respects : Respects F s s (fun _ => True) (fun _ _ => True) := by
    constructor <;> intros <;> trivial
  obtain ⟨r', -, taken⟩ := record_transfers channel.line respects known written (type?_of_recordKnown known)
  obtain ⟨front, behind, rfl, nothing, taken⟩ := taken room
  rw [nothing ⟨rfl, total⟩, List.append_nil]
  exact taken.passes ⟨rfl, total⟩ rest

/-- The bytes that a record is written as can be read exactly if they keep the limits of a reader. -/
theorem decode_ok_iff {serial : Nat} {d : Declarations} {s : Schema} (F : Formulas)
    (compiled : Schema.compile serial d = .ok s) {t : Record} {bytes : List UInt8}
    (known : recordKnown s (fun _ => True) t) (written : encode t = .ok bytes) :
    (∃ t', decode F s t.layout.name bytes = .ok t') ↔ recordReadable t 0 := by
  have channel := Channel.of_compile compiled compiled (.refl s)
  have taken : (∃ r left, topRecord F s t.layout (bytes ++ []) = .ok r left) ↔ recordReadable t 0 :=
    record_take channel t 0 Limits.depth bytes known (Nat.zero_add _) written []
  rw [← taken, List.append_nil]
  -- What is left behind the record is no reason to refuse it.
  unfold decode decodeAs Reader.run
  simp only [type?_of_recordKnown known]
  cases topRecord F s t.layout bytes with
  | ok r left => simp
  | error e left => simp

/-- Lists inside each other, with integers in the innermost ones. -/
def nestKind : Nat → Kind
  | 0 => .int
  | n + 1 => .list (nestKind n)

/-- An empty list inside so many others. -/
def nestValue : Nat → Value
  | 0 => .list []
  | n + 1 => .list [some (nestValue n)]

def nestType : TypeDecl :=
  ⟨"Nest", none, [⟨"nest", nestKind 130, 1, false, false, none, []⟩]⟩

def nestDeclarations : Declarations :=
  ⟨[nestType], [], []⟩

def nestLayout : Layout :=
  nestDeclarations.layout 0 [] nestType []

def nestSchema : Schema :=
  ⟨0, [nestLayout], [], []⟩

theorem compile_nest : Schema.compile 0 nestDeclarations = .ok nestSchema := by decide +kernel

def nestFormulas : Formulas :=
  ⟨fun _ _ => .absent, fun _ _ => .absent⟩

/-- A record with so many lists around an empty one. -/
def nest (n : Nat) : Record :=
  ⟨nestLayout, [.value (nestValue n)]⟩

theorem known_nestValue (n k : Nat) : (nestValue n).Known nestSchema (fun _ => True) (nestKind k) := by
  induction n generalizing k with
  | zero => cases k <;> trivial
  | succ n ih =>
    cases k with
    | zero => trivial
    | succ k => exact ⟨ih k, trivial⟩

theorem known_nest (n : Nat) : recordKnown nestSchema (fun _ => True) (nest n) := by
  have typed : nestSchema.type? "Nest" = some nestLayout := by decide +kernel
  exact ⟨typed, rfl, trivial, fun _ => known_nestValue n 130, trivial⟩

theorem readable_nestValue (n k depth : Nat) :
    (nestValue n).Readable (nestKind (n + k + 1)) false depth ↔ depth + n < Limits.depth := by
  induction n generalizing depth with
  | zero => simp [nestValue, nestKind, Value.Readable, Requirement.value, Requirement.items, readable]
  | succ n ih =>
    -- One list more is one level more.
    have inner := ih (depth + 1)
    rw [show n + 1 + k + 1 = (n + k + 1) + 1 by omega]
    change (false = true ∨ depth < Limits.depth) ∧ (nestValue n).Readable (nestKind (n + k + 1)) false (depth + 1) ∧
      True ↔ _
    rw [inner, and_true]
    simp only [Bool.false_eq_true, false_or]
    omega

theorem readable_nest {n : Nat} (few : n < Limits.depth) : recordReadable (nest (n + 1)) 0 := by
  have inner := (readable_nestValue n (128 - n) 0).mpr (by simpa using few)
  rw [show n + (128 - n) + 1 = 129 by simp only [Limits.depth] at few; omega] at inner
  have few : nestLayout.wireOrder.length ≤ Limits.wireFields := by decide
  exact ⟨few, fun _ => ⟨Or.inl rfl, inner, trivial⟩, trivial⟩

/-- A list at the greatest depth is written and read. -/
theorem decode_ok_nest : ∃ bytes, encode (nest 128) = .ok bytes ∧ recordReadable (nest 128) 0 ∧
    ∃ t', decode nestFormulas nestSchema "Nest" bytes = .ok t' := by
  obtain ⟨bytes, written⟩ := Except.exists_of_isOk (x := encode (nest 128)) (by decide +kernel)
  have readable : recordReadable (nest 128) 0 := readable_nest (by decide)
  exact ⟨bytes, written, readable, (decode_ok_iff nestFormulas compile_nest (known_nest 128) written).mpr readable⟩

/-- A list that is one level deeper is still written, but it cannot be read. -/
theorem not_decode_ok_nest : ∃ bytes, recordKnown nestSchema (fun _ => True) (nest 129) ∧
    encode (nest 129) = .ok bytes ∧ ∀ t', decode nestFormulas nestSchema "Nest" bytes ≠ .ok t' := by
  obtain ⟨bytes, written⟩ := Except.exists_of_isOk (x := encode (nest 129)) (by decide +kernel)
  have refused : ((encode (nest 129)).toOption.any fun bytes =>
      (decode nestFormulas nestSchema "Nest" bytes).isOk) = false := by decide +kernel
  refine ⟨bytes, known_nest 129, written, fun t' read => ?_⟩
  rw [written] at refused
  simp [Except.toOption, read, Except.isOk, Except.toBool] at refused

end EntityGraph.Wire
