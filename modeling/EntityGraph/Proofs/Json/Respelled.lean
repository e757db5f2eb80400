import EntityGraph.Proofs.Json.Emitted
import EntityGraph.Proofs.Json.ParseBack
import EntityGraph.Proofs.Wire.RoundTrip

/-! Unknown records in other spellings.

A record of an unknown type carries its members as text. A reader spells them anew, so what comes back differs from what
was written in this spelling. Neither documents nor comparisons of values depend on it. -/

namespace EntityGraph

open List

variable {r r' : Record}

/-- The unknown record as a reader spells it: the members other than the type name, in key order and without blanks. -/
def Unknown.respelled (u : Unknown) : Unknown :=
  let rest := Entries.erase Emit.typeNameKey (Emit.unknownMembers u.body)
  ⟨u.name, if rest.isEmpty then .empty else .json (Json.object rest).render⟩

/-- The value with its unknown records spelled anew. -/
def Value.respelled (v : Value) : Value :=
  v.mapUnknown Unknown.respelled

/-- The field with its unknown records spelled anew. -/
def Field.respelled (f : Field Value) : Field Value :=
  f.mapUnknown Unknown.respelled

/-- The record with its unknown records spelled anew. -/
def RecordOf.respelled (r : Record) : Record :=
  recordMapUnknown Unknown.respelled r

namespace Emit

/-- A new spelling has the same members, apart from the type name. -/
theorem unknownMembers_respelled (u : Unknown) :
    unknownMembers u.respelled.body = Entries.erase typeNameKey (unknownMembers u.body) := by
  obtain ⟨sorted, spelled⟩ := unknownMembers_spelled u.body
  unfold Unknown.respelled
  dsimp only
  -- Without members there is no text, and with some their text is read back.
  split
  · rename_i none
    rw [List.isEmpty_iff] at none
    rw [none]
    rfl
  · have rest : Json.Spelled (.object (Entries.erase typeNameKey (unknownMembers u.body))) TokenTree.levels := by
      refine ⟨sorted.sublist filter_sublist, Json.membersSpelled_iff.mpr fun e mem => ?_⟩
      exact Json.membersSpelled_iff.mp spelled e (mem_of_mem_filter mem)
    rw [unknownMembers, rest.json?_render]

theorem value_unknown_respelled (flag : Bool) (u : Unknown) (kind : Kind) :
    value flag (.unknown u.respelled) kind = value flag (.unknown u) kind := by
  -- The type name is bound last, so it does not matter whether it was a member before.
  rw [value, value, unknownMembers_respelled, Entries.insert_erase (unknownMembers_spelled u.body).1]
  rfl

/-- The document of a value does not depend on how its unknown records are spelled. -/
theorem value_respelled (flag : Bool) (v : Value) (kind : Kind) :
    value flag (v.mapUnknown Unknown.respelled) kind = value flag v kind := by
  induction v using Value.induct generalizing kind with
  | scalar v plain =>
    cases v with
    | unknown u => exact value_unknown_respelled flag u kind
    | _ => first | rfl | cases plain
  | record r ih =>
    rcases r with ⟨layout, fields⟩
    rw [Value.mapUnknown, recordMapUnknown, value_record, value_record, fieldsMapUnknown_eq_map]
    -- The layout stays, and with it the type name in an open position.
    refine congrArg Json.object (fieldMembers_congr (length_map _) fun i info _ => ?_)
    rw [getElem?_map]
    cases there : fields[i]? with
    | none => rfl
    | some f =>
      cases f with
      | value v => simp [member?, Field.mapUnknown, ih v (mem_of_getElem? there)]
      | _ => rfl
  | list items ih =>
    refine congrArg Json.array (itemDocuments_congr ?_)
    induction items with
    | nil => exact .nil
    | cons item rest later =>
      have others := later fun v member => ih v (.tail _ member)
      cases item with
      | none => exact .cons .none others
      | some v => exact .cons (.some (ih v mem_cons_self _)) others
  | map entries ih =>
    refine congrArg Json.object (entryMembers_congr ?_ [])
    induction entries with
    | nil => exact .nil
    | cons e rest later =>
      have others := later fun k v member => ih k v (.tail _ member)
      rcases e with ⟨k, _ | v⟩
      · exact .cons (.mk k .none) others
      · exact .cons (.mk k (.some (ih k v mem_cons_self _))) others

end Emit

/-- Records that differ in spellings alone have the same document. -/
theorem RecordOf.toJson_eq_of_respelled (same : r'.respelled = r.respelled) (includeDangerous : Bool) :
    r'.toJson includeDangerous = r.toJson includeDangerous := by
  -- The document is that of a value in a position of any kind that is not open.
  have document (r : Record) : r.toJson includeDangerous = Emit.value includeDangerous (.record r) (.record "") := rfl
  rw [document, document, ← Emit.value_respelled _ (.record r'), ← Emit.value_respelled _ (.record r)]
  exact congrArg (fun r => Emit.value includeDangerous (.record r) (.record "")) same

/-- Records that differ in spellings alone are the same in all but the bodies of unknown records. -/
theorem recordBare_eq_of_respelled (same : r'.respelled = r.respelled) : recordBare r' = recordBare r := by
  have bare := congrArg (recordMapUnknown Unknown.bare) same
  -- Without the body nothing is left of the spelling.
  have forget : Unknown.bare ∘ Unknown.respelled = Unknown.bare := rfl
  rwa [RecordOf.respelled, RecordOf.respelled, recordMapUnknown_mapUnknown, recordMapUnknown_mapUnknown, forget,
    ← recordBare_eq_mapUnknown, ← recordBare_eq_mapUnknown] at bare

/-- A reader's own spelling stays. -/
theorem Unknown.respelled_respelled (u : Unknown) : u.respelled.respelled = u.respelled := by
  -- The type name is gone after the first time.
  have again : Entries.erase Emit.typeNameKey (Emit.unknownMembers u.respelled.body) =
      Entries.erase Emit.typeNameKey (Emit.unknownMembers u.body) := by
    rw [Emit.unknownMembers_respelled]
    exact Entries.erase_of_fresh fun e member => by simpa [Entries.erase] using (mem_filter.mp member).2
  unfold respelled at again ⊢
  dsimp only at again ⊢
  rw [again]

end EntityGraph
