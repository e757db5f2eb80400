import EntityGraph.Proofs.Wire.Transfer

/-! Where the fields of a received record come from: from the wire if they are on it, and from derivations if not. -/

namespace EntityGraph

open List

variable {i : Nat} {f : FieldInfo} {r : Record}

namespace Layout.Accepted

variable {l : Layout} (accepted : l.Accepted)
include accepted

theorem eq_of_name {j : Nat} {g : FieldInfo} (here : l.fields[i]? = some f) (there : l.fields[j]? = some g)
    (same : f.name = g.name) : i = j := by
  have inside : i < (l.fields.map fun f => f.name).length := by simpa using (List.getElem?_eq_some_iff.mp here).1
  refine (getElem?_inj inside accepted.names).mp ?_
  simp [here, there, same]

/-- A layout finds a field by its name. -/
theorem indexOf?_name (found : l.fields[i]? = some f) : l.indexOf? f.name = some i := by
  obtain ⟨inside, rfl⟩ := List.getElem?_eq_some_iff.mp found
  unfold indexOf?
  rw [findIdx?_eq_some_iff_getElem]
  -- No earlier field has the name, since each name belongs to one field.
  refine ⟨inside, by simp, fun j before same => ?_⟩
  have earlier : l.fields[j]? = some l.fields[j] := getElem?_eq_getElem (by omega)
  have position := accepted.eq_of_name earlier found (by simpa using same)
  omega

end Layout.Accepted

theorem RecordOf.field_name (accepted : r.layout.Accepted) (found : r.layout.fields[i]? = some f) :
    r.field f.name = r.fields[i]?.getD .absent := by
  unfold RecordOf.field
  rw [accepted.indexOf?_name found]

namespace Draft

variable {d : Draft} {entries : List (Nat × Field Value)}

theorem layout_putAll (d : Draft) (entries : List (Nat × Field Value)) : (d.putAll entries).layout = d.layout := by
  unfold putAll
  induction entries generalizing d with
  | nil => rfl
  | cons e rest ih => exact ih (d.put e.1 e.2)

theorem length_putAll (d : Draft) (entries : List (Nat × Field Value)) :
    (d.putAll entries).fields.length = d.fields.length := by
  unfold putAll
  induction entries generalizing d with
  | nil => rfl
  | cons e rest ih => simpa [put] using ih (d.put e.1 e.2)

theorem getElem?_putAll_of_not_mem (other : i ∉ entries.map Prod.fst) :
    (d.putAll entries).fields[i]? = d.fields[i]? := by
  unfold putAll
  induction entries generalizing d with
  | nil => rfl
  | cons e rest ih =>
    rw [map_cons, mem_cons, not_or] at other
    rw [foldl_cons, ih other.2]
    exact getElem?_set_ne (Ne.symm other.1)

/-- A position that is written once has the field that was written. -/
theorem getElem?_putAll_of_mem {f : Field Value} (once : (entries.map Prod.fst).Nodup) (member : (i, f) ∈ entries)
    (inside : i < d.fields.length) : (d.putAll entries).fields[i]? = some f := by
  induction entries generalizing d with
  | nil => cases member
  | cons e rest ih =>
    rw [map_cons, nodup_cons] at once
    rcases mem_cons.mp member with rfl | later
    · -- It is written first, and not again.
      have kept : (putAll (d.put i f) rest).fields[i]? = (d.put i f).fields[i]? := getElem?_putAll_of_not_mem once.1
      exact kept.trans (getElem?_set_self inside)
    · have inside' : i < (d.put e.1 e.2).fields.length := by simpa [put] using inside
      exact ih once.2 later inside'

end Draft

theorem Derivation.exists_evaluate? {d : Derivation} (pure : d.isPure = true) (F : Formulas)
    (read : String → Field Value) : ∃ g, d.evaluate? F read = some g := by
  cases d with
  | firstOf sources => exact ⟨_, rfl⟩
  | computed inputs formula => exact ⟨_, rfl⟩
  | contextual formula => cases pure

namespace RecordOf

/-- Another record of the same layout, which may differ at the given positions. -/
structure Differs (positions : List Nat) (r r' : Record) : Prop where
  layout : r'.layout = r.layout
  length : r'.fields.length = r.fields.length
  fields : ∀ i, i ∉ positions → r'.fields[i]? = r.fields[i]?

theorem differs_deriveAt (F : Formulas) (r : Record) (i : Nat) : Differs [i] r (r.deriveAt F i) := by
  unfold deriveAt
  -- A position without a derivation is left as it is.
  split
  · refine ⟨rfl, by simp, fun j other => ?_⟩
    exact getElem?_set_ne (by simpa [eq_comm] using other)
  · exact ⟨rfl, rfl, fun _ _ => rfl⟩

/-- Running a pure derivation writes what it computes. -/
theorem getElem?_deriveAt {F : Formulas} {d : Derivation} (found : r.layout.fields[i]? = some f)
    (derives : f.derivation = some d) (pure : d.isPure = true) (inside : i < r.fields.length) :
    (r.deriveAt F i).fields[i]? = d.evaluate? F r.field := by
  obtain ⟨g, computed⟩ := Derivation.exists_evaluate? pure F r.field
  unfold deriveAt
  rw [found, Option.bind_some, derives, Option.bind_some, computed, getElem?_set_self inside]

/-- Running derivations one after the other leaves positions without one alone. -/
theorem differs_foldl_deriveAt (F : Formulas) (r : Record) (order : List Nat) :
    Differs order r (order.foldl (deriveAt F) r) := by
  induction order generalizing r with
  | nil => exact ⟨rfl, rfl, fun _ _ => rfl⟩
  | cons i rest ih =>
    have first := differs_deriveAt F r i
    -- What the first derivation left alone, the others find as it was.
    have later := ih (r.deriveAt F i)
    refine ⟨later.layout.trans first.layout, later.length.trans first.length, fun j other => ?_⟩
    rw [mem_cons, not_or] at other
    exact (later.fields j other.2).trans (first.fields j (by simpa using other.1))

/-- A field on the wire is not derived again. -/
theorem getElem?_deriveOffWire (F : Formulas) (found : r.layout.fields[i]? = some f)
    (onWire : f.onWire = true) : (r.deriveOffWire F).fields[i]? = r.fields[i]? := by
  -- The positions that are run have passed the filter, and this one does not.
  refine (differs_foldl_deriveAt F r _).fields i fun member => ?_
  have off := (mem_filter.mp member).2
  simp [found, onWire] at off

end RecordOf

namespace Layout

variable {l : Layout} {F : Formulas} {sent : List (Field Value)} {k : Nat}

theorem layout_receive : (l.receive F sent).layout = l := by
  unfold receive Draft.buildRead RecordOf.deriveOffWire
  rw [(RecordOf.differs_foldl_deriveAt _ _ _).layout]
  exact Draft.layout_putAll _ _

theorem length_receive : (l.receive F sent).fields.length = l.fields.length := by
  unfold receive Draft.buildRead RecordOf.deriveOffWire
  rw [(RecordOf.differs_foldl_deriveAt _ _ _).length]
  exact (Draft.length_putAll _ _).trans length_replicate

/-- The draft of what is sent has the first fields on the wire, and no other. -/
theorem Accepted.getElem?_putAll (accepted : l.Accepted) (position : l.wireOrder[k]? = some i) :
    ((Draft.new l).putAll (l.wireOrder.zip sent)).fields[i]? = some (sent[k]?.getD .absent) := by
  obtain ⟨f, found, -⟩ := (accepted.wire i).mp (mem_of_getElem? position)
  have inside : i < (Draft.new l).fields.length := by
    simpa [Draft.new] using (List.getElem?_eq_some_iff.mp found).1
  cases there : sent[k]? with
  | some f =>
    refine Draft.getElem?_putAll_of_mem ?_ ?_ inside
    · -- What is filled is the front of the wire, where no position stands twice.
      rw [← Wire.Reader.zip_take_length, map_fst_zip (length_take_le _ _)]
      exact accepted.wireOnce.sublist (take_sublist _ _)
    · exact mem_of_getElem? (getElem?_zip_eq_some.mpr ⟨position, there⟩)
  | none =>
    -- Fewer fields were sent than there are places, and this place is behind the last of them.
    rw [Draft.getElem?_putAll_of_not_mem]
    · rw [getElem?_eq_getElem inside]
      simp [Draft.new]
    · -- A position is filled only in its own place.
      intro filled
      obtain ⟨⟨j, f⟩, member, rfl⟩ := mem_map.mp filled
      obtain ⟨k', here⟩ := getElem?_of_mem member
      obtain ⟨position', there'⟩ := getElem?_zip_eq_some.mp here
      have same : k' = k := by
        refine (getElem?_inj (List.getElem?_eq_some_iff.mp position').1 accepted.wireOnce).mp ?_
        rw [position', position]
      rw [same, there] at there'
      cases there'

/-- A field on the wire is the one that was sent in its place, and absent if none was. -/
theorem Accepted.getElem?_receive (accepted : l.Accepted) (position : l.wireOrder[k]? = some i) :
    (l.receive F sent).fields[i]? = some (sent[k]?.getD .absent) := by
  obtain ⟨f, found, onWire⟩ := (accepted.wire i).mp (mem_of_getElem? position)
  unfold receive Draft.buildRead
  rw [RecordOf.getElem?_deriveOffWire F _ onWire]
  · exact accepted.getElem?_putAll position
  · rw [Draft.raw, Draft.layout_putAll]
    exact found

theorem Accepted.getElem?_sent_receive (accepted : l.Accepted) (position : l.wireOrder[k]? = some i) :
    (l.receive F sent).sent[k]? = some (sent[k]?.getD .absent) := by
  unfold RecordOf.sent
  rw [layout_receive, getElem?_map, position, Option.map_some, accepted.getElem?_receive position,
    Option.getD_some]

/-- Sending a received record once more gives the same record. -/
theorem Accepted.receive_sent (accepted : l.Accepted) : l.receive F (l.receive F sent).sent = l.receive F sent := by
  -- Both drafts agree at each position, so the derivations start from the same fields.
  have fields : ((Draft.new l).putAll (l.wireOrder.zip (l.receive F sent).sent)).fields =
      ((Draft.new l).putAll (l.wireOrder.zip sent)).fields := by
    refine ext_getElem? fun i => ?_
    by_cases onWire : i ∈ l.wireOrder
    · obtain ⟨k, position⟩ := getElem?_of_mem onWire
      rw [accepted.getElem?_putAll position, accepted.getElem?_putAll position,
        accepted.getElem?_sent_receive position, Option.getD_some]
    · -- What is not on the wire is filled by neither.
      have untouched : ∀ sent : List (Field Value), i ∉ (l.wireOrder.zip sent).map Prod.fst := by
        intro sent filled
        obtain ⟨⟨j, f⟩, member, rfl⟩ := mem_map.mp filled
        exact onWire (of_mem_zip member).1
      rw [Draft.getElem?_putAll_of_not_mem (untouched _), Draft.getElem?_putAll_of_not_mem (untouched _)]
  have drafted : ∀ sent, l.receive F sent =
      RecordOf.deriveOffWire F ⟨l, ((Draft.new l).putAll (l.wireOrder.zip sent)).fields⟩ := by
    intro sent
    exact congrArg (fun layout => RecordOf.deriveOffWire F ⟨layout, _⟩) (Draft.layout_putAll (Draft.new l) _)
  rw [drafted (RecordOf.sent _), fields, ← drafted]

end Layout

end EntityGraph
