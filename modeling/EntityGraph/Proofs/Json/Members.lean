import EntityGraph.Json.TokenReader
import EntityGraph.Proofs.Record.Induction
import EntityGraph.Proofs.Schema.Compile

/-! What is read from the members of an object, one by one and from all of them at once. -/

namespace EntityGraph

open List

variable {e : String × Json}

namespace DocumentReader

variable {F : Formulas} {s : Schema} {depth : Nat} {draft draft' : Draft}
  {members rest : List (String × Json)} {k : String} {j : Json} {es before : List (String × Option Value)} {i : Nat}
  {info : FieldInfo} {read read' : Draft} {site : Site} {kind : Kind}

/-! ### Members of a document as fields -/

/-- Reading a member of a known key fills in its field. -/
theorem fields_known (position : draft.layout.indexOf? k = some i) (found : draft.layout.fields[i]? = some info) :
    fields F s ((k, j) :: rest) depth draft =
      (value F s j ⟨draft.layout.name, info.name⟩ info.kind depth >>= fun v =>
        fields F s rest depth (draft.put i (.ofOption v))) := by
  rw [fields]
  simp only [position, Layout.field?_of_indexOf? position found]

theorem fields_unknown (unknown : draft.layout.indexOf? k = none) :
    fields F s ((k, j) :: rest) depth draft = fields F s rest depth draft := by
  rw [fields]
  simp only [unknown]

/-- What a field held before a member is read into it does not matter. -/
theorem fields_overwrite (f : Field Value) (position : draft.layout.indexOf? k = some i) :
    fields F s ((k, j) :: rest) depth (draft.put i f) = fields F s ((k, j) :: rest) depth draft := by
  obtain ⟨info, found, -⟩ := Layout.of_indexOf? position
  have same : (draft.put i f).layout.indexOf? k = some i := position
  rw [fields_known position found, fields_known same found]
  simp only [Draft.put, set_set]

/-- The layout of a draft stays while fields are read into it. -/
theorem layout_fields (read : fields F s members depth draft = .ok draft') : draft'.layout = draft.layout := by
  induction members generalizing draft with
  | nil =>
    cases read
    rfl
  | cons e rest ih =>
    rcases e with ⟨k, j⟩
    cases position : draft.layout.indexOf? k with
    | none => exact ih (fields_unknown position ▸ read)
    | some i =>
      obtain ⟨info, found, -⟩ := Layout.of_indexOf? position
      rw [fields_known position found] at read
      obtain ⟨v, -, following⟩ := Except.bind_eq_ok.mp read
      -- The draft with the field filled in has the same layout.
      have kept := ih following
      exact kept

/-- Filling in a field first makes no difference to the reading of members that leave this field alone. -/
theorem fields_put (f : Field Value) (others : ∀ e ∈ members, draft.layout.indexOf? e.1 ≠ some i)
    (read : fields F s members depth draft = .ok draft') :
    fields F s members depth (draft.put i f) = .ok (draft'.put i f) := by
  induction members generalizing draft with
  | nil =>
    cases read
    rfl
  | cons e rest ih =>
    rcases e with ⟨k, j⟩
    have here := others (k, j) mem_cons_self
    have later : ∀ e ∈ rest, draft.layout.indexOf? e.1 ≠ some i := fun e member =>
      others e (.tail _ member)
    cases position : draft.layout.indexOf? k with
    | none =>
      have same : (draft.put i f).layout.indexOf? k = none := position
      rw [fields_unknown position] at read
      rw [fields_unknown same]
      exact ih later read
    | some i' =>
      obtain ⟨info, found, -⟩ := Layout.of_indexOf? position
      have same : (draft.put i f).layout.indexOf? k = some i' := position
      rw [fields_known position found] at read
      rw [fields_known same found]
      obtain ⟨v, first, following⟩ := Except.bind_eq_ok.mp read
      -- The two fields are different ones, so they can be filled in in any order.
      have ne : i' ≠ i := fun same => here (same ▸ position)
      have swapped : (draft.put i f).put i' (.ofOption v) = (draft.put i' (.ofOption v)).put i f := by
        simp only [Draft.put, set_comm _ _ ne]
      exact Except.bind_eq_ok.mpr ⟨v, first, swapped ▸ ih later following⟩

/-- A member whose key none of the others has can be read first or last. -/
theorem fields_first (others : ∀ e ∈ members, e.1 ≠ k) (before : fields F s members depth draft = .ok read)
    (after : fields F s [(k, j)] depth read = .ok read') : fields F s ((k, j) :: members) depth draft = .ok read' := by
  have kept := layout_fields before
  cases position : draft.layout.indexOf? k with
  | none =>
    rw [fields_unknown (kept ▸ position)] at after
    cases after
    rwa [fields_unknown position]
  | some i =>
    obtain ⟨info, found, named⟩ := Layout.of_indexOf? position
    rw [fields_known (kept ▸ position) (kept ▸ found)] at after
    obtain ⟨v, first, following⟩ := Except.bind_eq_ok.mp after
    cases following
    rw [fields_known position found, ← kept]
    refine Except.bind_eq_ok.mpr ⟨v, first, fields_put _ (fun e member there => ?_) before⟩
    -- A position has one name.
    obtain ⟨info', found', named'⟩ := Layout.of_indexOf? there
    cases found.symm.trans found'
    exact others e member (named'.symm.trans named)

/-- Reading one more member gives what is read if the member is bound among the others. -/
theorem fields_insert (sorted : members.Pairwise fun a b => a.1 < b.1)
    (before : fields F s members depth draft = .ok read) (after : fields F s [(k, j)] depth read = .ok read') :
    fields F s (Entries.insert k j members) depth draft = .ok read' := by
  -- The induction follows the insertion; the draft changes with each member that is passed.
  induction members generalizing draft with
  | nil =>
    cases before
    exact after
  | cons e rest ih =>
    rcases e with ⟨k', j'⟩
    have ⟨first, later⟩ := pairwise_cons.mp sorted
    unfold Entries.insert
    split
    · -- In front of all others the key is smaller than theirs.
      rename_i front
      refine fields_first (fun e member same => ?_) before after
      rcases mem_cons.mp member with rfl | behind
      · exact String.lt_irrefl _ (same ▸ front)
      · exact String.lt_asymm front (same ▸ first e behind)
    · rename_i notFront
      cases position : draft.layout.indexOf? k' with
      | none =>
        rw [fields_unknown position] at before
        split
        · rw [fields_unknown position]
          exact ih later before
        · -- The member that is replaced was not read, and neither is the new one of its key.
          rename_i notBehind
          have same : k = k' := String.le_antisymm (String.not_lt.mp notBehind) (String.not_lt.mp notFront)
          exact fields_first (fun e member there => String.lt_irrefl _ (there ▸ same ▸ first e member)) before after
      | some i =>
        obtain ⟨info, found, -⟩ := Layout.of_indexOf? position
        rw [fields_known position found] at before
        obtain ⟨v, here, following⟩ := Except.bind_eq_ok.mp before
        split
        · rw [fields_known position found]
          exact Except.bind_eq_ok.mpr ⟨v, here, ih later following⟩
        · -- The older member of the key leaves no trace, since the new one fills in the same field.
          rename_i notBehind
          have same : k = k' := String.le_antisymm (String.not_lt.mp notBehind) (String.not_lt.mp notFront)
          have ahead := fields_first (fun e member there => String.lt_irrefl _ (there ▸ same ▸ first e member))
            following after
          rwa [fields_overwrite _ (same ▸ position)] at ahead

/-- Every member of a known key could be read. -/
theorem value_of_fields (read : fields F s members depth draft = .ok draft') (member : e ∈ members)
    (position : draft.layout.indexOf? e.1 = some i) (found : draft.layout.fields[i]? = some info) :
    ∃ v, value F s e.2 ⟨draft.layout.name, info.name⟩ info.kind depth = .ok v := by
  induction members generalizing draft with
  | nil => cases member
  | cons head rest ih =>
    rcases head with ⟨k, j⟩
    cases here : draft.layout.indexOf? k with
    | none =>
      rw [fields_unknown here] at read
      rcases mem_cons.mp member with rfl | later
      · cases here.symm.trans position
      · exact ih read later position found
    | some i' =>
      obtain ⟨info', found', -⟩ := Layout.of_indexOf? here
      rw [fields_known here found'] at read
      obtain ⟨v, first, following⟩ := Except.bind_eq_ok.mp read
      rcases mem_cons.mp member with rfl | later
      · cases here.symm.trans position
        cases found'.symm.trans found
        exact ⟨v, first⟩
      · have later := ih following later
        exact later position found

/-! ### Members of a document as entries -/

/-- The entry has the key of the member and the value that is read from it. -/
def EntryRead (F : Formulas) (s : Schema) (site : Site) (kind : Kind) (depth : Nat)
    (member : String × Json) (entry : String × Option Value) : Prop :=
  member.1 = entry.1 ∧ value F s member.2 site kind depth = .ok entry.2

/-- The entries of a map in key order are its members, each with its value. -/
theorem entries_of_forall₂ (sorted : members.Pairwise fun a b => a.1 < b.1)
    (behind : ∀ b ∈ before, ∀ e ∈ members, b.1 < e.1) (each : List.Forall₂ (EntryRead F s site kind depth) members es) :
    entries F s members site kind depth before = .ok (before ++ es) := by
  induction each generalizing before with
  | nil => simp [entries]
  | @cons e e' rest rest' here others ih =>
    rcases e with ⟨k, j⟩
    rcases e' with ⟨k', v⟩
    obtain ⟨rfl, read⟩ : k = k' ∧ value F s j site kind depth = .ok v := here
    have ⟨first, later⟩ := pairwise_cons.mp sorted
    have last : ∀ b ∈ before, b.1 < k := fun b member => behind b member _ mem_cons_self
    rw [entries]
    refine Except.bind_eq_ok.mpr ⟨v, read, ?_⟩
    -- Each entry is bound behind those before it, which its own key then comes before in turn.
    rw [Entries.insert_of_lt last, ih later, append_assoc, singleton_append]
    intro b member e there
    rcases mem_append.mp member with old | new
    · exact behind b old e (.tail _ there)
    · cases mem_singleton.mp new
      exact first e there

/-- Every member could be read. -/
theorem value_of_entries (read : entries F s members site kind depth before = .ok es) :
    ∀ e ∈ members, ∃ v, value F s e.2 site kind depth = .ok v := by
  induction members generalizing before with
  | nil => simp
  | cons head rest ih =>
    rcases head with ⟨k, j⟩
    rw [entries] at read
    obtain ⟨v, first, following⟩ := Except.bind_eq_ok.mp read
    intro e member
    rcases mem_cons.mp member with rfl | later
    · exact ⟨v, first⟩
    · exact ih following e later

end DocumentReader

namespace TokenTree

variable {room : Nat} {members : List (Option String × TokenTree)} {before gathered : List (String × Json)}
  {closed : Bool} {t : TokenTree}

mutual

/-- No object has two members of the same key. -/
def keysOnce : TokenTree → Bool
  | .array items _ => itemsKeysOnce items
  -- Keys that are no text are all alike here, but the tokens of a document have none of them.
  | .object members _ => decide (members.map Prod.fst).Nodup && membersKeysOnce members
  | _ => true

/-- No object among the items has two members of the same key. -/
def itemsKeysOnce : List TokenTree → Bool
  | [] => true
  | t :: rest => t.keysOnce && itemsKeysOnce rest

/-- No object among the values of the members has two members of the same key. -/
def membersKeysOnce : List (Option String × TokenTree) → Bool
  | [] => true
  | (_, t) :: rest => t.keysOnce && membersKeysOnce rest

end

/-- An array spells a document if it is closed, there is room for it and its items spell documents. -/
theorem of_toJson?_array {items : List TokenTree} {j : Json}
    (spelled : (TokenTree.array items closed).toJson? room = some j) :
    ∃ inner js, room = inner + 1 ∧ closed = true ∧ itemsToJson? items inner = some js ∧ j = .array js := by
  cases room with
  | zero => simp [toJson?] at spelled
  | succ inner =>
    rw [toJson?] at spelled
    cases closed with
    | false => cases spelled
    | true =>
      obtain ⟨js, inside, same⟩ := Option.map_eq_some_iff.mp spelled
      exact ⟨inner, js, rfl, rfl, inside, same.symm⟩

/-- An object spells a document if it is closed, there is room for it and its members spell documents. -/
theorem of_toJson?_object {j : Json} (spelled : (TokenTree.object members closed).toJson? room = some j) :
    ∃ inner gathered, room = inner + 1 ∧ closed = true ∧ membersToJson? members inner [] = some gathered ∧
      j = .object gathered := by
  cases room with
  | zero => simp [toJson?] at spelled
  | succ inner =>
    rw [toJson?] at spelled
    cases closed with
    | false => cases spelled
    | true =>
      obtain ⟨gathered, inside, same⟩ := Option.map_eq_some_iff.mp spelled
      exact ⟨inner, gathered, rfl, rfl, inside, same.symm⟩

theorem of_itemsToJson?_cons {rest : List TokenTree} {js : List Json}
    (spelled : itemsToJson? (t :: rest) room = some js) :
    ∃ j js', t.toJson? room = some j ∧ itemsToJson? rest room = some js' ∧ js = j :: js' := by
  rw [itemsToJson?] at spelled
  obtain ⟨j, here, others⟩ := Option.bind_eq_some_iff.mp spelled
  obtain ⟨js', later, same⟩ := Option.bind_eq_some_iff.mp others
  cases same
  exact ⟨j, js', here, later, rfl⟩

/-- The first member spells a document under its key, which is bound before the others are. -/
theorem of_membersToJson?_cons {key : Option String} {rest : List (Option String × TokenTree)}
    (spelled : membersToJson? ((key, t) :: rest) room before = some gathered) :
    ∃ k j, key = some k ∧ t.toJson? room = some j ∧
      membersToJson? rest room (Entries.insert k j before) = some gathered := by
  cases key with
  | none => simp [membersToJson?] at spelled
  | some k =>
    rw [membersToJson?] at spelled
    obtain ⟨j, here, later⟩ := Option.bind_eq_some_iff.mp spelled
    exact ⟨k, j, rfl, here, later⟩

/-- Tokens that spell a document do not break off. -/
theorem isWhole_of_toJson? (t : TokenTree) : ∀ {room : Nat} {j : Json}, t.toJson? room = some j → t.isWhole = true := by
  induction t using TokenTree.induct with
  | null | bool | number | string => simp [isWhole]
  | array items closed each =>
    intro room j spelled
    obtain ⟨inner, js, -, rfl, inside, -⟩ := of_toJson?_array spelled
    rw [isWhole, Bool.true_and]
    clear spelled
    induction items generalizing js with
    | nil => simp [itemsWhole]
    | cons t rest ih =>
      obtain ⟨j, js', here, later, -⟩ := of_itemsToJson?_cons inside
      have ⟨first, others⟩ := forall_mem_cons.mp each
      rw [itemsWhole, first here, ih others js' later]
      rfl
  | object members closed each =>
    intro room j spelled
    obtain ⟨inner, gathered, -, rfl, inside, -⟩ := of_toJson?_object spelled
    rw [isWhole, Bool.true_and]
    clear spelled
    generalize ([] : List (String × Json)) = before at inside
    induction members generalizing before with
    | nil => simp [membersWhole]
    | cons member rest ih =>
      rcases member with ⟨key, t⟩
      obtain ⟨k, j, -, here, later⟩ := of_membersToJson?_cons inside
      rw [membersWhole, each key t mem_cons_self here]
      exact ih (fun k t member => each k t (.tail _ member)) _ later

/-- Gathered members stand in key order. -/
theorem sorted_membersToJson? (sorted : before.Pairwise fun a b => a.1 < b.1)
    (spelled : membersToJson? members room before = some gathered) : gathered.Pairwise fun a b => a.1 < b.1 := by
  induction members generalizing before with
  | nil =>
    rw [membersToJson?] at spelled
    cases spelled
    exact sorted
  | cons member rest ih =>
    obtain ⟨k, j, -, -, later⟩ := of_membersToJson?_cons spelled
    exact ih (Entries.pairwise_insert sorted) later

/-- A binding stays if no later member has its key. -/
theorem mem_membersToJson? (spelled : membersToJson? members room before = some gathered)
    (bound : e ∈ before) (last : some e.1 ∉ members.map Prod.fst) : e ∈ gathered := by
  induction members generalizing before with
  | nil =>
    rw [membersToJson?] at spelled
    cases spelled
    exact bound
  | cons member rest ih =>
    rcases member with ⟨key, t⟩
    obtain ⟨k, j, rfl, -, later⟩ := of_membersToJson?_cons spelled
    rw [map_cons, mem_cons, not_or] at last
    -- Binding another key leaves the binding alone.
    exact ih later (Entries.mem_insert_of_mem (fun same => last.1 (congrArg some same)) bound) last.2

/-- Members of different keys all stay. -/
theorem length_membersToJson? (spelled : membersToJson? members room before = some gathered)
    (once : (members.map Prod.fst).Nodup) (fresh : ∀ e ∈ before, some e.1 ∉ members.map Prod.fst) :
    gathered.length = before.length + members.length := by
  induction members generalizing before with
  | nil =>
    rw [membersToJson?] at spelled
    cases spelled
    rfl
  | cons member rest ih =>
    rcases member with ⟨key, t⟩
    obtain ⟨k, j, rfl, -, later⟩ := of_membersToJson?_cons spelled
    rw [map_cons, nodup_cons] at once
    -- A key that is not bound yet makes one binding more.
    have new : ∀ e ∈ before, e.1 ≠ k := fun e bound same => fresh e bound (by simp [same])
    rw [ih later once.2, Entries.length_insert_of_fresh new, length_cons]
    · omega
    · intro e bound
      rcases Entries.of_mem_insert bound with rfl | old
      · exact once.1
      · exact fun there => fresh e old (by simp [there])

end TokenTree

end EntityGraph
