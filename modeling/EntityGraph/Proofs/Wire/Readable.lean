import EntityGraph.Proofs.Record.Requirement
import EntityGraph.Wire.Encode
import Mathlib.Data.Nat.Init

/-! The limits that a reader keeps and a writer does not. -/

namespace EntityGraph

open Wire (unknownBody)

/-- The bytes of a record are not too many to stand inside a value. -/
def RecordOf.BodyFits (r : Record) (depth : Nat) : Prop :=
  ∀ bytes, Wire.record r depth = .ok bytes → bytes.length ≤ Limits.snapshotBytes

/-- What is written of a value keeps the limits of a reader at the same depth. A place is a kind, with a flag for the
value of a field and the depth. A writer keeps the others too: the number of elements, the length of texts that are
values, and the depth of records. -/
def readable : Requirement (Kind × Bool × Nat) Prop where
  nothing := True
  both := And
  leaf
    | .enum e, _ => e.isDynamic = true → e.name.utf8ByteSize ≤ Limits.textBytes
    | .unknown u, _ => u.name.utf8ByteSize ≤ Limits.textBytes ∧ (unknownBody u.body).length ≤ Limits.snapshotBytes
    | _, _ => True
  -- A collection inside a value is one level deeper than the value, also if it is empty.
  atList
    | _, (.list k, flagged, depth), elements =>
      (flagged = true ∨ depth < Limits.depth) ∧ elements (k, false, if flagged then depth else depth + 1)
    | _, _, _ => True
  atMap
    | entries, (.map k, flagged, depth), values =>
      (flagged = true ∨ depth < Limits.depth) ∧ (∀ e ∈ entries, e.1.utf8ByteSize ≤ Limits.textBytes) ∧
        values (k, false, if flagged then depth else depth + 1)
    | _, _, _ => True
  atRecord
    | r, (.openType _, _, depth), inside =>
      r.layout.name.utf8ByteSize ≤ Limits.textBytes ∧ r.BodyFits (depth + 1) ∧
        inside (.record r.layout.name, true, depth + 1)
    | r, (_, _, depth), inside => r.BodyFits (depth + 1) ∧ inside (.record r.layout.name, true, depth + 1)
  whole r _ fields := r.layout.wireOrder.length ≤ Limits.wireFields ∧ fields
  atField
    | _, some f, (_, _, depth), value => f.onWire = true → value (f.kind, true, depth)
    | _, none, _, _ => True

/-- What is written of the value keeps the limits. -/
def Value.Readable (v : Value) (k : Kind) (flagged : Bool) (depth : Nat) : Prop :=
  readable.value v (k, flagged, depth)

/-- The record has not too many fields on the wire, and what they hold keeps the limits. -/
def recordReadable (r : Record) (depth : Nat) : Prop :=
  readable.record r (.record r.layout.name, true, depth)

/-- The value of a field keeps the limits. -/
def Field.Readable (kind : Kind) (depth : Nat) : Field Value → Prop
  | .value v => v.Readable kind true depth
  | _ => True

/-- Fields keep the limits if each of them does that is on the wire. -/
theorem recordReadable_iff {r : Record} {depth : Nat} : recordReadable r depth ↔
    r.layout.wireOrder.length ≤ Limits.wireFields ∧ ∀ (i : Nat) (info : FieldInfo), r.layout.fields[i]? = some info →
      info.onWire = true → (r.fields[i]?.getD .absent).Readable info.kind depth := by
  have conjoins : readable.Conjoins fun answer => answer := ⟨trivial, fun _ _ => Iff.rfl⟩
  rcases r with ⟨layout, fields⟩
  refine and_congr_right fun _ => conjoins.fields_iff.trans
    ⟨fun all i info described onWire => ?_, fun all i v here => ?_⟩
  · -- Of a field without a value nothing is asked.
    dsimp only
    cases here : fields[i]? with
    | none => exact trivial
    | some f =>
      cases f with
      | value v =>
        have asked := all i v here
        rw [described] at asked
        exact asked onWire
      | null | absent => exact trivial
  · cases described : layout.fields[i]? with
    | none => exact trivial
    | some info =>
      have asked := all i info described
      dsimp only at asked
      rw [here] at asked
      exact asked

/-- The field at a position keeps the limits. -/
def FieldReadable (l : Layout) (fields : List (Field Value)) (depth i : Nat) : Prop :=
  ∀ info, l.fields[i]? = some info → (fields[i]?.getD .absent).Readable info.kind depth

end EntityGraph
