import EntityGraph.Proofs.Except
import EntityGraph.Proofs.Record.Induction
import EntityGraph.Wire.Encode

/-! A record is written field by field: its bytes depend on the parts of the fields on the wire, in their order. -/

namespace EntityGraph.Wire

open List

variable {depth depth' : Nat} {r : Record} {bytes : List UInt8} {i : Nat} {info : FieldInfo} {r' : Record}

/-- The part of a field. -/
def fieldPart (site : Site) (kind : Kind) (depth : Nat) : Field Value → Except EncodeError Part
  | .absent => .ok ([false], [])
  | .null => .ok ([true, false], [])
  | .value v => (value site true v kind depth).map fun part => (true :: true :: part.1, part.2)

/-- The part of the field at a position. -/
def partAt (r : Record) (depth i : Nat) : Except EncodeError Part :=
  (fields r.layout.name r.fields r.layout.fields depth)[i]?.getD (.ok ([false], []))

theorem fields_eq (type : String) (values : List (Field Value)) (infos : List FieldInfo) (depth : Nat) :
    fields type values infos depth = (values.zip infos).map fun e => fieldPart ⟨type, e.2.name⟩ e.2.kind depth e.1 := by
  induction values generalizing infos with
  | nil => cases infos <;> rfl
  | cons f rest ih =>
    cases infos with
    | nil => cases f <;> rfl
    | cons info infos => cases f <;> simp only [fields, ih, zip_cons_cons, map_cons, fieldPart]

theorem getD_fields {type : String} {values : List (Field Value)} {infos : List FieldInfo}
    (sized : values.length = infos.length) (found : infos[i]? = some info) :
    (fields type values infos depth)[i]?.getD (.ok ([false], [])) =
      fieldPart ⟨type, info.name⟩ info.kind depth (values[i]?.getD .absent) := by
  have inside : i < values.length := by
    rw [sized]
    exact (List.getElem?_eq_some_iff.mp found).1
  have both : (values.zip infos)[i]? = some (values[i], info) :=
    getElem?_zip_eq_some.mpr ⟨getElem?_eq_getElem inside, found⟩
  rw [fields_eq, getElem?_map, both, getElem?_eq_getElem inside]
  rfl

theorem partAt_eq {r : SizedRecord} (found : r.layout.fields[i]? = some info) :
    partAt r depth i = fieldPart ⟨r.layout.name, info.name⟩ info.kind depth (r.fields[i]?.getD .absent) :=
  getD_fields r.sized found

theorem record_eq (r : Record) (depth : Nat) : record r depth =
    if Limits.depth < depth then .error (.tooDeep Limits.depth)
    else (r.layout.wireOrder.mapM (partAt r depth)).map assemble := by
  rcases r with ⟨layout, values⟩
  rw [record]
  rfl

theorem exists_record_eq_ok (shallow : depth ≤ Limits.depth)
    (each : ∀ i ∈ r.layout.wireOrder, ∃ part, partAt r depth i = .ok part) : ∃ bytes, record r depth = .ok bytes := by
  obtain ⟨parts, ran⟩ := Except.exists_mapM_eq_ok each
  refine ⟨assemble parts, ?_⟩
  rw [record_eq, if_neg (by omega), ran]
  rfl

theorem record_congr
    (each : List.Forall₂ (fun i j => partAt r depth i = partAt r' depth j) r.layout.wireOrder r'.layout.wireOrder) :
    record r depth = record r' depth := by
  rw [record_eq, record_eq, Except.mapM_congr each]

/-- A record that has the parts of one that was written, and is not deeper, is written as the same bytes. -/
theorem record_ok_of_forall₂ (shallow : depth' ≤ depth) (each : List.Forall₂ (fun i j => ∀ part, partAt r
      depth i = .ok part → partAt r' depth' j = .ok part) r.layout.wireOrder r'.layout.wireOrder)
    (written : record r depth = .ok bytes) : record r' depth' = .ok bytes := by
  rw [record_eq] at written ⊢
  split at written
  · cases written
  · obtain ⟨parts, ran, rfl⟩ := Except.map_eq_ok.mp written
    rw [if_neg (by omega), Except.mapM_ok_of_forall₂ each ran]
    rfl

/-! ### Writing again what was written -/

section again

variable {site : Site} {flagged : Bool} {k : Kind} {part : Part} {out body : List UInt8}
  {es fs : List (String × Option Value)} {vs ws : List (Option Value)}

/-- Elements are written as others were. -/
theorem items_ok_of_forall₂ (each : List.Forall₂ (Option.Rel fun v w => ∀ part,
      value site false v k depth = .ok part → value site false w k depth' = .ok part) vs ws)
    (written : items site vs k depth out = .ok body) : items site ws k depth' out = .ok body := by
  -- What is written so far is generalised, since each element adds to it.
  induction each generalizing out with
  | nil => exact written
  | cons first _ ih =>
    cases first with
    | none => exact ih written
    | some same =>
      rw [items] at written ⊢
      obtain ⟨part, here, others⟩ := Except.bind_eq_ok.mp written
      rw [same part here]
      exact ih others

theorem entries_ok_of_forall₂ (each : List.Forall₂ (Entries.Rel fun v w => ∀ part, value site false v k depth = .ok
      part → value site false w k depth' = .ok part) es fs) (written : entries site es k depth out = .ok body) :
    entries site fs k depth' out = .ok body := by
  induction each generalizing out with
  | nil => exact written
  | cons first _ ih =>
    rcases first with ⟨key, first⟩
    cases first with
    | none => exact ih written
    | some same =>
      rw [entries] at written ⊢
      obtain ⟨part, here, others⟩ := Except.bind_eq_ok.mp written
      rw [same part here]
      exact ih others

/-- A list is written as another one was if its elements are. -/
theorem list_ok_of_forall₂ (each : List.Forall₂ (Option.Rel fun v w => ∀ part,
      value site false v k (if flagged then depth else depth + 1) = .ok part →
      value site false w k (if flagged then depth' else depth' + 1) = .ok part) vs ws)
    (written : value site flagged (.list vs) (.list k) depth = .ok part) :
    value site flagged (.list ws) (.list k) depth' = .ok part := by
  -- As many elements are there on both sides, and in the same places.
  rw [value, isEmpty_of_forall₂ each, each.length_eq, isSome_of_forall₂ each] at written
  rw [value]
  split at written
  · rename_i none
    rwa [if_pos none]
  · rename_i some
    obtain ⟨_, few, written⟩ := Except.bind_eq_ok.mp written
    obtain ⟨body, inner, written⟩ := Except.bind_eq_ok.mp written
    rw [if_neg some, few, items_ok_of_forall₂ each inner]
    exact written

/-- A map is written as another one was if its values are. -/
theorem map_ok_of_forall₂ (each : List.Forall₂ (Entries.Rel fun v w => ∀ part, value site false v k (if flagged then
      depth else depth + 1) = .ok part → value site false w k (if flagged then depth' else depth' + 1) = .ok part) es
      fs) (written : value site flagged (.map es) (.map k) depth = .ok part) :
    value site flagged (.map fs) (.map k) depth' = .ok part := by
  rw [value, isEmpty_of_forall₂ each, each.length_eq, isSome_of_forall₂_entries each] at written
  rw [value]
  split at written
  · rename_i none
    rwa [if_pos none]
  · rename_i some
    obtain ⟨_, few, written⟩ := Except.bind_eq_ok.mp written
    obtain ⟨body, inner, written⟩ := Except.bind_eq_ok.mp written
    rw [if_neg some, few, entries_ok_of_forall₂ each inner]
    exact written

/-- The part of a field is written again if that of its value is. -/
theorem fieldPart_ok_of_rel {f f' : Field Value} (related : Field.Rel (fun v w => ∀ part,
      value site true v k depth = .ok part → value site true w k depth' = .ok part) f f')
    (written : fieldPart site k depth f = .ok part) : fieldPart site k depth' f' = .ok part := by
  cases related with
  | absent => exact written
  | null => exact written
  | value same =>
    obtain ⟨inner, here, rfl⟩ := Except.map_eq_ok.mp written
    rw [fieldPart, same inner here]
    rfl

end again

theorem inner_le {flagged : Bool} (less : depth' ≤ depth) :
    (if flagged = true then depth' else depth' + 1) ≤ if flagged = true then depth else depth + 1 := by
  split <;> omega

/-- A record is written in the same way where it is less deep if its values are. -/
theorem record_shallower_of (less : depth' ≤ depth) (each : ∀ v, .value v ∈ r.fields → ∀ site kind part, value site
      true v kind depth = .ok part → value site true v kind depth' = .ok part) (written : record r depth = .ok bytes) :
    record r depth' = .ok bytes := by
  -- The positions on the wire are the same, so it is enough to look at one part.
  refine record_ok_of_forall₂ less (forall₂_same.mpr fun i _ part here => ?_) written
  rw [partAt, fields_eq, getElem?_map] at here ⊢
  cases found : (r.fields.zip r.layout.fields)[i]? with
  | none => rwa [found] at here
  | some e =>
    rw [found] at here
    refine fieldPart_ok_of_rel ?_ here
    rcases e with ⟨_ | _ | v, info⟩
    · exact .absent
    · exact .null
    · exact .value (each v (of_mem_zip (mem_of_getElem? found)).1 _ _)

/-- What is written at some depth is written in the same way where it is less deep. -/
theorem value_shallower (v : Value) {site : Site} {flagged : Bool} {kind : Kind} {part : Part} (less : depth' ≤ depth)
    (written : value site flagged v kind depth = .ok part) : value site flagged v kind depth' = .ok part := by
  induction v using Value.induct generalizing site flagged kind depth depth' part with
  | scalar v plain =>
    -- What has nothing in it is written without a look at the depth.
    cases v <;> first | (cases plain; done) | (cases kind <;> simp only [value] at written ⊢ <;> exact written)
  | record r ih =>
    have body : ∀ {bytes}, record r (depth + 1) = .ok bytes → record r (depth' + 1) = .ok bytes :=
      record_shallower_of (Nat.succ_le_succ less) fun v member _ _ _ => ih v member (Nat.succ_le_succ less)
    cases kind with
    | record name =>
      rw [value] at written ⊢
      split at written
      · rename_i named
        obtain ⟨bytes, inner, rfl⟩ := Except.map_eq_ok.mp written
        rw [if_pos named, body inner]
        rfl
      · cases written
    | openType name =>
      rw [value] at written ⊢
      obtain ⟨bytes, inner, rfl⟩ := Except.map_eq_ok.mp written
      rw [body inner]
      rfl
    | _ => simp [value] at written
  | list vs ih =>
    cases kind with
    | list k =>
      refine list_ok_of_forall₂ (forall₂_same.mpr fun item listed => ?_) written
      cases item with
      | none => exact .none
      | some v => exact .some fun part => ih v listed (inner_le less)
    | _ => simp [value] at written
  | map es ih =>
    cases kind with
    | map k =>
      refine map_ok_of_forall₂ (forall₂_same.mpr fun e listed => ?_) written
      rcases e with ⟨key, _ | v⟩
      · exact .mk key .none
      · exact .mk key (.some fun part => ih key v listed (inner_le less))
    | _ => simp [value] at written

theorem record_shallower (r : Record) (less : depth' ≤ depth) (written : record r depth = .ok bytes) :
    record r depth' = .ok bytes :=
  record_shallower_of less (fun v _ _ _ _ => value_shallower v less) written

/-- The bytes of a record do not depend on how deep it is. -/
theorem record_unique {bytes' : List UInt8} (here : record r depth = .ok bytes) (there : record r depth' = .ok bytes') :
    bytes = bytes' := by
  -- Both are what is written at the depth that is the lesser one.
  rcases Nat.le_total depth depth' with less | less
  · rw [record_shallower r less there] at here
    exact (Except.ok.inj here).symm
  · rw [record_shallower r less here] at there
    exact Except.ok.inj there

end EntityGraph.Wire
