import EntityGraph.Proofs.Json.Members

/-! The two readers of JSON texts agree: the one that takes the tokens in the order of the text, and the one that
takes the document, in which only the last of a repeated key is left. -/

namespace EntityGraph

open List

variable {layout : Layout} {tree : TokenTree} {j : Json} {bytes : List UInt8}

namespace TokenReader

open DocumentReader (Site)
open EntityGraph.Except (bind_eq_ok map_eq_ok)
open TokenTree (itemsToJson? membersToJson? itemsKeysOnce membersKeysOnce)

variable {F : Formulas} {s : Schema} {n : Number} {draft draft' : Draft} {left : Nat}
  {vs : List (Option Value)} {js : List Json} {r : Record}

/-- The readers take the same numbers. -/
theorem number_ok_iff {site : Site} {kind : Kind} {v : Value} :
    number site kind n = .ok v ↔ DocumentReader.number site kind n = .ok v := by
  cases n with
  | integer n =>
    cases kind with
    | int =>
      -- An integer out of range is refused by both, but not with the same error.
      simp only [number, DocumentReader.number]
      cases (Number.integer n).int64? with
      | some i => rfl
      | none => simp
    | _ => rfl
  | double x => cases kind <;> rfl

theorem literal_eq {site : Site} {kind : Kind} {l : Literal} (spelled : l.number? = some n) :
    literal site kind l = number site kind n := by
  unfold literal
  rw [spelled]

/-- Reading the first member fills in its field, if it has one. -/
theorem of_fields_cons {k : String} {t : TokenTree} {rest : List (Option String × TokenTree)} {room depth : Nat}
    (read : fields F s ((some k, t) :: rest) room depth draft = .ok draft') :
    (draft.layout.indexOf? k = none ∧ fields F s rest room depth draft = .ok draft') ∨
      ∃ i info v, draft.layout.indexOf? k = some i ∧ draft.layout.fields[i]? = some info ∧
        value F s t ⟨draft.layout.name, info.name⟩ info.kind room depth = .ok v ∧
        fields F s rest room depth (draft.put i (.ofOption v)) = .ok draft' := by
  cases position : draft.layout.indexOf? k with
  | none =>
    -- The tokens of an unknown key are only skipped.
    rw [fields] at read
    simp only [position] at read
    obtain ⟨_, -, following⟩ := bind_eq_ok.mp read
    exact Or.inl ⟨rfl, following⟩
  | some i =>
    obtain ⟨info, found, -⟩ := Layout.of_indexOf? position
    rw [fields] at read
    simp only [position, Layout.field?_of_indexOf? position found] at read
    obtain ⟨v, first, following⟩ := bind_eq_ok.mp read
    exact Or.inr ⟨i, info, v, rfl, found, first, following⟩

/-- What is read from the tokens is read from the document that they spell. -/
def Faithful (F : Formulas) (s : Schema) (t : TokenTree) : Prop :=
  ∀ {site kind room depth v j}, value F s t site kind room depth = .ok v → t.toJson? room = some j →
    DocumentReader.value F s j site kind depth = .ok v

section Faithful

variable {ts : List TokenTree} {members : List (Option String × TokenTree)} {site : Site} {kind element : Kind}
  {room depth : Nat} {es es' : List (String × Option Value)} {before gathered : List (String × Json)}

theorem items_spelled (each : ∀ t ∈ ts, Faithful F s t)
    (read : items F s ts site kind element room depth left = .ok vs) (spelled : itemsToJson? ts room = some js) :
    DocumentReader.items F s js site element depth = .ok vs ∧ js.length ≤ left := by
  induction ts generalizing left vs js with
  | nil =>
    cases spelled
    rw [items] at read
    exact ⟨by rw [DocumentReader.items]; exact read, Nat.zero_le _⟩
  | cons t rest ih =>
    obtain ⟨j, js', here, later, rfl⟩ := TokenTree.of_itemsToJson?_cons spelled
    have ⟨head, tail⟩ := forall_mem_cons.mp each
    rw [items] at read
    obtain ⟨v, first, read⟩ := bind_eq_ok.mp read
    split at read
    · cases read
    · rename_i some
      obtain ⟨vs', following, ended⟩ := bind_eq_ok.mp read
      obtain ⟨following, few⟩ := ih tail following later
      refine ⟨?_, by simp only [length_cons]; omega⟩
      rw [DocumentReader.items]
      exact bind_eq_ok.mpr ⟨v, head first here, bind_eq_ok.mpr ⟨vs', following, ended⟩⟩

/-- Entries that are bound one after the other are those of the members gathered so far. -/
theorem entries_spelled (each : ∀ k t, (k, t) ∈ members → Faithful F s t)
    (sofar : List.Forall₂ (DocumentReader.EntryRead F s site element depth) before es)
    (few : es.length ≤ Limits.collectionItems) (read : entries F s members site kind element room depth es = .ok es')
    (spelled : membersToJson? members room before = some gathered) :
    List.Forall₂ (DocumentReader.EntryRead F s site element depth) gathered es' ∧
      es'.length ≤ Limits.collectionItems := by
  induction members generalizing es before with
  | nil =>
    cases spelled
    rw [entries] at read
    cases read
    exact ⟨sofar, few⟩
  | cons member rest ih =>
    rcases member with ⟨key, t⟩
    obtain ⟨k, j, rfl, here, later⟩ := TokenTree.of_membersToJson?_cons spelled
    rw [entries] at read
    split at read
    · cases read
    · rename_i notFull
      obtain ⟨v, first, following⟩ := bind_eq_ok.mp read
      have longer := Entries.length_insert_le k v es
      -- Both lists bind the same key, so they stay side by side.
      have sofar : List.Forall₂ (DocumentReader.EntryRead F s site element depth)
          (Entries.insert k j before) (Entries.insert k v es) :=
        Entries.forall₂_insert (DocumentReader.value F s · site element depth = .ok ·)
          (each _ t mem_cons_self first here) sofar
      exact ih (fun k t member => each k t (.tail _ member)) sofar (by omega) following later

/-- Fields that are read one after the other are those that are read from the members gathered so far. -/
theorem fields_spelled {empty : Draft} (each : ∀ k t, (k, t) ∈ members → Faithful F s t)
    (sorted : before.Pairwise fun a b => a.1 < b.1) (sofar : DocumentReader.fields F s before depth empty = .ok draft)
    (read : fields F s members room depth draft = .ok draft')
    (spelled : membersToJson? members room before = some gathered) :
    DocumentReader.fields F s gathered depth empty = .ok draft' := by
  induction members generalizing draft before with
  | nil =>
    cases spelled
    rw [fields] at read
    cases read
    exact sofar
  | cons member rest ih =>
    rcases member with ⟨key, t⟩
    obtain ⟨k, j, rfl, here, later⟩ := TokenTree.of_membersToJson?_cons spelled
    have tail : ∀ k t, (k, t) ∈ rest → Faithful F s t :=
      fun k t member => each k t (.tail _ member)
    -- One more member is read from the tokens, and bound among those that are gathered.
    rcases of_fields_cons read with ⟨unknown, following⟩ | ⟨i, info, v, position, found, first, following⟩
    · have more : DocumentReader.fields F s [(k, j)] depth draft = .ok draft := by
        rw [DocumentReader.fields_unknown unknown, DocumentReader.fields]
      exact ih tail (Entries.pairwise_insert sorted) (DocumentReader.fields_insert sorted sofar more) following later
    · have more : DocumentReader.fields F s [(k, j)] depth draft = .ok (draft.put i (.ofOption v)) := by
        rw [DocumentReader.fields_known position found]
        exact bind_eq_ok.mpr ⟨v, each _ t mem_cons_self first here, by rw [DocumentReader.fields]⟩
      exact ih tail (Entries.pairwise_insert sorted) (DocumentReader.fields_insert sorted sofar more) following later

end Faithful

/-- A value that is read from tokens is read from the document that they spell. -/
theorem value_spelled (t : TokenTree) : Faithful F s t := by
  induction t using TokenTree.induct with
  | null =>
    intro site kind room depth v j read spelled
    cases spelled
    simpa [value, DocumentReader.value] using read
  | bool b =>
    intro site kind room depth v j read spelled
    cases spelled
    cases kind with
    | bool => simpa [value, DocumentReader.value] using read
    | _ => simp [value] at read
  | number l =>
    intro site kind room depth v j read spelled
    obtain ⟨n, counted, rfl⟩ := Option.map_eq_some_iff.mp spelled
    rw [value, literal_eq counted] at read
    obtain ⟨w, read, same⟩ := map_eq_ok.mp read
    simp only [DocumentReader.value]
    exact map_eq_ok.mpr ⟨w, number_ok_iff.mp read, same⟩
  | string s =>
    intro site kind room depth v j read spelled
    obtain ⟨s', rfl, rfl⟩ := Option.map_eq_some_iff.mp spelled
    simpa [value, string, DocumentReader.value] using read
  | array ts closed each =>
    intro site kind room depth v j read spelled
    obtain ⟨inner, js, rfl, rfl, inside, rfl⟩ := TokenTree.of_toJson?_array spelled
    cases kind with
    | list element =>
      rw [value] at read
      obtain ⟨vs, read, ended⟩ := bind_eq_ok.mp read
      -- One reader counts the items while it reads them, the other one before.
      obtain ⟨read, few⟩ := items_spelled each read inside
      rw [DocumentReader.value]
      simp only [if_neg (Nat.not_lt.mpr few)]
      exact bind_eq_ok.mpr ⟨vs, read, ended⟩
    | _ => simp [value] at read
  | object members closed each =>
    intro site kind room depth v j read spelled
    obtain ⟨inner, gathered, rfl, rfl, inside, rfl⟩ := TokenTree.of_toJson?_object spelled
    cases kind with
    | record name =>
      rw [value] at read
      rw [DocumentReader.value]
      cases found : s.type? name with
      | none => simp [found] at read
      | some layout =>
        simp only [found] at read ⊢
        obtain ⟨empty, started, read⟩ := bind_eq_ok.mp read
        obtain ⟨draft, read, ended⟩ := bind_eq_ok.mp read
        -- At first no members are gathered, and nothing is read from them.
        have read := fields_spelled each .nil (by rw [DocumentReader.fields]) read inside
        exact bind_eq_ok.mpr ⟨empty, started, bind_eq_ok.mpr ⟨draft, read, ended⟩⟩
    | openType name =>
      -- The members are gathered first, and the rest is left to the other reader.
      rw [value] at read
      simpa only [openRecord, inside] using read
    | map element =>
      rw [value] at read
      obtain ⟨es, read, ended⟩ := bind_eq_ok.mp read
      obtain ⟨entries, few⟩ := entries_spelled each .nil (Nat.zero_le _) read inside
      -- The gathered members stand in key order, so reading them binds one entry after the other.
      have sorted := TokenTree.sorted_membersToJson? .nil inside
      rw [DocumentReader.value]
      simp only [if_neg (Nat.not_lt.mpr (entries.length_eq ▸ few))]
      refine bind_eq_ok.mpr ⟨es, ?_, ended⟩
      exact DocumentReader.entries_of_forall₂ sorted (by simp) entries
    | _ => simp [value] at read

/-- If no key is repeated, what is read from the document that the tokens spell lets them be read. -/
def Accepting (F : Formulas) (s : Schema) (t : TokenTree) : Prop :=
  t.keysOnce = true → ∀ {site kind room depth v j}, DocumentReader.value F s j site kind depth = .ok v →
    t.toJson? room = some j → ∃ w, value F s t site kind room depth = .ok w

section Accepting

variable {ts : List TokenTree} {members : List (Option String × TokenTree)} {site : Site} {kind element : Kind}
  {room depth : Nat} {before gathered : List (String × Json)}

theorem items_accepts (each : ∀ t ∈ ts, Accepting F s t) (once : itemsKeysOnce ts = true)
    (read : DocumentReader.items F s js site element depth = .ok vs) (spelled : itemsToJson? ts room = some js)
    (few : js.length ≤ left) : ∃ ws, items F s ts site kind element room depth left = .ok ws := by
  induction ts generalizing left vs js with
  | nil => exact ⟨[], by rw [items]⟩
  | cons t rest ih =>
    obtain ⟨j, js', here, later, rfl⟩ := TokenTree.of_itemsToJson?_cons spelled
    have ⟨head, tail⟩ := forall_mem_cons.mp each
    rw [itemsKeysOnce, Bool.and_eq_true] at once
    rw [DocumentReader.items] at read
    obtain ⟨v, first, read⟩ := bind_eq_ok.mp read
    obtain ⟨vs', following, -⟩ := bind_eq_ok.mp read
    rw [length_cons] at few
    obtain ⟨w, first⟩ := head once.1 first here
    obtain ⟨ws, following⟩ := ih tail once.2 following later (Nat.le_sub_of_add_le few)
    rw [items]
    refine ⟨w :: ws, bind_eq_ok.mpr ⟨w, first, ?_⟩⟩
    rw [if_neg (by omega)]
    exact bind_eq_ok.mpr ⟨ws, following, rfl⟩

theorem entries_accepts (es : List (String × Option Value))
    (each : ∀ k t, (k, t) ∈ members → Accepting F s t) (once : (members.map Prod.fst).Nodup)
    (inner : membersKeysOnce members = true) (few : es.length + members.length ≤ Limits.collectionItems)
    (read : ∀ e ∈ gathered, ∃ v, DocumentReader.value F s e.2 site element depth = .ok v)
    (spelled : membersToJson? members room before = some gathered) :
    ∃ es', entries F s members site kind element room depth es = .ok es' := by
  induction members generalizing es before with
  | nil => exact ⟨es, by rw [entries]⟩
  | cons member rest ih =>
    rcases member with ⟨key, t⟩
    obtain ⟨k, j, rfl, here, later⟩ := TokenTree.of_membersToJson?_cons spelled
    rw [map_cons, nodup_cons] at once
    rw [membersKeysOnce, Bool.and_eq_true] at inner
    rw [length_cons] at few
    -- No later member has the key, so the document has this one.
    obtain ⟨v, first⟩ := read (k, j) (TokenTree.mem_membersToJson? later (Entries.mem_insert_self k j before) once.1)
    obtain ⟨w, first⟩ := each _ t mem_cons_self inner.1 first here
    have longer := Entries.length_insert_le k w es
    obtain ⟨es', following⟩ := ih (Entries.insert k w es)
      (fun k t member => each k t (.tail _ member)) once.2 inner.2 (by omega) later
    rw [entries, if_neg (by omega)]
    exact ⟨es', bind_eq_ok.mpr ⟨w, first, following⟩⟩

theorem fields_accepts (draft : Draft) (each : ∀ k t, (k, t) ∈ members → Accepting F s t)
    (once : (members.map Prod.fst).Nodup) (inner : membersKeysOnce members = true)
    (read : ∀ e ∈ gathered, ∀ i info, draft.layout.indexOf? e.1 = some i → draft.layout.fields[i]? = some info →
      ∃ v, DocumentReader.value F s e.2 ⟨draft.layout.name, info.name⟩ info.kind depth = .ok v)
    (spelled : membersToJson? members room before = some gathered) :
    ∃ draft', fields F s members room depth draft = .ok draft' := by
  induction members generalizing draft before with
  | nil => exact ⟨draft, by rw [fields]⟩
  | cons member rest ih =>
    rcases member with ⟨key, t⟩
    obtain ⟨k, j, rfl, here, later⟩ := TokenTree.of_membersToJson?_cons spelled
    have tail : ∀ k t, (k, t) ∈ rest → Accepting F s t :=
      fun k t member => each k t (.tail _ member)
    rw [map_cons, nodup_cons] at once
    rw [membersKeysOnce, Bool.and_eq_true] at inner
    rw [fields]
    cases position : draft.layout.indexOf? k with
    | none =>
      obtain ⟨draft', following⟩ := ih draft tail once.2 inner.2 read later
      -- Tokens that are skipped must not break off.
      exact ⟨draft', bind_eq_ok.mpr ⟨(), by rw [t.isWhole_of_toJson? here]; rfl, following⟩⟩
    | some i =>
      obtain ⟨info, found, -⟩ := Layout.of_indexOf? position
      have stays := TokenTree.mem_membersToJson? later (Entries.mem_insert_self k j before) once.1
      obtain ⟨v, first⟩ := read (k, j) stays i info position found
      obtain ⟨w, first⟩ := each _ t mem_cons_self inner.1 first here
      -- The draft with the field filled in has the same layout.
      obtain ⟨draft', following⟩ := ih (draft.put i (.ofOption w)) tail once.2 inner.2 read later
      simp only [Layout.field?_of_indexOf? position found]
      exact ⟨draft', bind_eq_ok.mpr ⟨w, first, following⟩⟩

end Accepting

/-- Tokens without repeated keys can be read if the document that they spell can. -/
theorem value_accepts (t : TokenTree) : Accepting F s t := by
  induction t using TokenTree.induct with
  | null => exact fun _ _ _ _ _ _ _ _ _ => ⟨none, by rw [value]⟩
  | bool b =>
    intro once site kind room depth v j read spelled
    cases spelled
    cases kind with
    | bool => exact ⟨some (.bool b), by rw [value]⟩
    | _ => simp [DocumentReader.value] at read
  | number l =>
    intro once site kind room depth v j read spelled
    obtain ⟨n, counted, rfl⟩ := Option.map_eq_some_iff.mp spelled
    simp only [DocumentReader.value] at read
    obtain ⟨w, read, same⟩ := map_eq_ok.mp read
    rw [value, literal_eq counted, number_ok_iff.mpr read]
    exact ⟨some w, rfl⟩
  | string s =>
    intro once site kind room depth v j read spelled
    obtain ⟨s', rfl, rfl⟩ := Option.map_eq_some_iff.mp spelled
    exact ⟨v, by simpa [value, string, DocumentReader.value] using read⟩
  | array ts closed each =>
    intro once site kind room depth v j read spelled
    obtain ⟨inner, js, rfl, rfl, inside, rfl⟩ := TokenTree.of_toJson?_array spelled
    rw [TokenTree.keysOnce] at once
    cases kind with
    | list element =>
      rw [DocumentReader.value] at read
      split at read
      · cases read
      · rename_i few
        obtain ⟨vs, read, -⟩ := bind_eq_ok.mp read
        obtain ⟨ws, accepted⟩ := items_accepts each once read inside (Nat.not_lt.mp few)
        rw [value]
        exact ⟨some (.list ws), bind_eq_ok.mpr ⟨ws, accepted, rfl⟩⟩
    | _ => simp [DocumentReader.value] at read
  | object members closed each =>
    intro once site kind room depth v j read spelled
    obtain ⟨inner, gathered, rfl, rfl, inside, rfl⟩ := TokenTree.of_toJson?_object spelled
    rw [TokenTree.keysOnce, Bool.and_eq_true, decide_eq_true_eq] at once
    cases kind with
    | record name =>
      rw [DocumentReader.value] at read
      rw [value]
      cases found : s.type? name with
      | none => simp [found] at read
      | some layout =>
        simp only [found] at read ⊢
        obtain ⟨empty, started, read⟩ := bind_eq_ok.mp read
        obtain ⟨draft, read, -⟩ := bind_eq_ok.mp read
        -- Every member of the document could be read, and so can the tokens of each.
        obtain ⟨draft', accepted⟩ := fields_accepts empty each once.1 once.2
          (fun e member i info position found => DocumentReader.value_of_fields read member position found) inside
        exact ⟨_, bind_eq_ok.mpr ⟨empty, started, bind_eq_ok.mpr ⟨draft', accepted, rfl⟩⟩⟩
    | openType name =>
      rw [value]
      exact ⟨v, by simpa only [openRecord, inside] using read⟩
    | map element =>
      rw [DocumentReader.value] at read
      split at read
      · cases read
      · rename_i few
        obtain ⟨es, read, -⟩ := bind_eq_ok.mp read
        -- Without repeated keys there are as many members in the text as in the document.
        have many := TokenTree.length_membersToJson? inside once.1 (by simp)
        obtain ⟨es', accepted⟩ := entries_accepts [] each once.1 once.2
          (by simp only [length_nil] at many ⊢; omega) (DocumentReader.value_of_entries read) inside
        rw [value]
        exact ⟨some (.map es'), bind_eq_ok.mpr ⟨es', accepted, rfl⟩⟩
    | _ => simp [DocumentReader.value] at read

/-- A record that is read from tokens is read from the document that they spell. -/
theorem record_spelled (spelled : tree.toJson? TokenTree.levels = some j) (read : record F s layout tree = .ok r) :
    ∃ members, j = .object members ∧ DocumentReader.record F s layout members = .ok r := by
  cases tree with
  | object members closed =>
    obtain ⟨inner, gathered, levels, rfl, inside, rfl⟩ := TokenTree.of_toJson?_object spelled
    cases levels
    refine ⟨gathered, rfl, ?_⟩
    obtain ⟨empty, started, read⟩ := bind_eq_ok.mp read
    obtain ⟨draft, read, ended⟩ := bind_eq_ok.mp read
    have read := fields_spelled (fun _ t _ => value_spelled t) .nil (by rw [DocumentReader.fields]) read inside
    exact bind_eq_ok.mpr ⟨empty, started, bind_eq_ok.mpr ⟨draft, read, ended⟩⟩
  -- Whatever else the tokens are, they are refused, with an error of their own.
  | number l =>
    simp only [record] at read
    split at read <;> cases read
  | string s => cases s <;> cases read
  | _ => cases read

/-- Tokens without repeated keys can be read as a record if the document that they spell can. -/
theorem record_accepts {members : List (String × Json)} (once : tree.keysOnce = true)
    (spelled : tree.toJson? TokenTree.levels = some (.object members))
    (read : DocumentReader.record F s layout members = .ok r) : ∃ r', record F s layout tree = .ok r' := by
  cases tree with
  | object tokens closed =>
    obtain ⟨inner, gathered, levels, rfl, inside, same⟩ := TokenTree.of_toJson?_object spelled
    cases levels
    cases same
    rw [TokenTree.keysOnce, Bool.and_eq_true, decide_eq_true_eq] at once
    obtain ⟨empty, started, read⟩ := bind_eq_ok.mp read
    obtain ⟨draft, read, -⟩ := bind_eq_ok.mp read
    obtain ⟨draft', accepted⟩ := fields_accepts empty (fun _ t _ => value_accepts t) once.1 once.2
      (fun e member i info position found => DocumentReader.value_of_fields read member position found) inside
    exact ⟨_, bind_eq_ok.mpr ⟨empty, started, bind_eq_ok.mpr ⟨draft', accepted, rfl⟩⟩⟩
  | array items closed =>
    obtain ⟨_, _, _, _, _, same⟩ := TokenTree.of_toJson?_array spelled
    cases same
  | number l =>
    simp only [TokenTree.toJson?, Option.map_eq_some_iff] at spelled
    obtain ⟨n, -, same⟩ := spelled
    cases same
  | string s =>
    simp only [TokenTree.toJson?, Option.map_eq_some_iff] at spelled
    obtain ⟨s', -, same⟩ := spelled
    cases same
  | null => simp [TokenTree.toJson?] at spelled
  | bool b => simp [TokenTree.toJson?] at spelled

end TokenReader

/-- No object among the tokens repeats a key. -/
def Scan.Result.keysOnce : Scan.Result → Bool
  | .whole tree _ | .cut tree => tree.keysOnce
  | .none => true

/-- A text that is a document, with its tokens. -/
theorem Scan.of_json? (parsed : Scan.json? bytes = some j) :
    ∃ tree rest, Scan.document bytes = .whole tree rest ∧ (Scan.skipBlank rest).isEmpty = true ∧
      tree.toJson? TokenTree.levels = some j := by
  unfold Scan.json? at parsed
  split at parsed
  · rename_i tree rest scanned
    split at parsed
    · rename_i ended
      exact ⟨tree, rest, scanned, ended, parsed⟩
    · cases parsed
  · cases parsed

/-- A text with nothing behind its tokens is read as they are. -/
theorem TokenReader.document_eq {F : Formulas} {s : Schema} {rest : List UInt8}
    (scanned : Scan.document bytes = .whole tree rest) (ended : (Scan.skipBlank rest).isEmpty = true) :
    document F s layout bytes = record F s layout tree := by
  unfold document
  simp only [scanned, ended]
  cases record F s layout tree with
  | error e => rfl
  | ok r => rfl

/-- A text that is a document is read from its tokens as a record only if the document is read as the same one. If no
object of the text repeats a key, what is read from the document is also read from the tokens. -/
theorem Record.ofText_agrees (F : Formulas) (s : Schema) (typeName : String) {bytes : List UInt8}
    {j : Json} (parsed : Scan.json? bytes = some j) :
    (∀ r, Record.ofText F s typeName bytes = .ok r → j.toRecord F s typeName = .ok r) ∧
      ((Scan.document bytes).keysOnce = true → ∀ r, j.toRecord F s typeName = .ok r →
        Record.ofText F s typeName bytes = .ok r) := by
  obtain ⟨tree, rest, scanned, ended, spelled⟩ := Scan.of_json? parsed
  rw [scanned]
  unfold Record.ofText Json.toRecord
  cases s.type? typeName with
  | none =>
    refine ⟨fun r read => ?_, fun once r read => ?_⟩
    · cases read
    · cases read
  | some layout =>
    simp only [TokenReader.document_eq scanned ended]
    refine ⟨fun r read => ?_, fun once r read => ?_⟩
    · obtain ⟨members, rfl, same⟩ := TokenReader.record_spelled spelled (Except.of_mapError_eq_ok read)
      exact same
    · cases j with
      | object members =>
        obtain ⟨r', accepted⟩ := TokenReader.record_accepts once spelled read
        obtain ⟨_, same, read'⟩ := TokenReader.record_spelled spelled accepted
        -- The tokens are read as some record, and by the first part that is the record of the document.
        cases same
        cases read.symm.trans read'
        rw [accepted]
        rfl
      | _ => cases read

/-- Notes with a text, a size and notes by name. -/
def noteType : TypeDecl :=
  ⟨"Note", none, [⟨"text", .text, 1, false, false, none, []⟩, ⟨"size", .double, 2, false, false, none, []⟩,
    ⟨"more", .map (.record "Note"), 3, false, false, none, []⟩]⟩

def noteLayout : Layout :=
  Declarations.layout ⟨[noteType], [], []⟩ 0 [] noteType []

def noteSchema : Schema :=
  ⟨0, [noteLayout], [], []⟩

/-- Nothing about a note is derived. -/
def noteFormulas : Formulas :=
  ⟨fun _ _ => .absent, fun _ _ => .absent⟩

/-- A note whose text, and one of whose notes, is given twice. -/
def repeatedNote : List UInt8 :=
  Utf8.encode ("\x7b\"text\":\"a\",\"more\":\x7b\"x\":\x7b\"size\":1\x7d,\"w\":null,"
    ++ "\"x\":\x7b\"size\":2.5\x7d\x7d,\"text\":null\x7d")

/-- A note without repetitions. -/
def plainNote : List UInt8 :=
  Utf8.encode ("\x7b\"size\":-1,\"other\":[\x7b\x7d],"
    ++ "\"more\":\x7b\"x\":\x7b\"text\":\"a\",\"size\":1e2\x7d,\"w\":null\x7d\x7d")

theorem ofText_agrees_note :
    (∃ j r, Scan.json? repeatedNote = some j ∧ Record.ofText noteFormulas noteSchema "Note" repeatedNote = .ok r ∧
      j.toRecord noteFormulas noteSchema "Note" = .ok r) ∧
    ∃ j r, Scan.json? plainNote = some j ∧ Record.ofText noteFormulas noteSchema "Note" plainNote = .ok r ∧
      j.toRecord noteFormulas noteSchema "Note" = .ok r := by
  constructor
  · obtain ⟨j, parsed⟩ := Option.isSome_iff_exists.mp (by decide +kernel : (Scan.json? repeatedNote).isSome = true)
    obtain ⟨r, read⟩ := Except.exists_of_isOk (x := Record.ofText noteFormulas noteSchema "Note" repeatedNote)
      (by decide +kernel)
    exact ⟨j, r, parsed, read, (Record.ofText_agrees _ _ _ parsed).1 r read⟩
  · obtain ⟨j, parsed⟩ := Option.isSome_iff_exists.mp (by decide +kernel : (Scan.json? plainNote).isSome = true)
    have once : (Scan.document plainNote).keysOnce = true := by decide +kernel
    have readable : ((Scan.json? plainNote).any fun j => (j.toRecord noteFormulas noteSchema "Note").isOk) = true := by
      decide +kernel
    rw [parsed] at readable
    obtain ⟨r, read⟩ := Except.exists_of_isOk readable
    exact ⟨j, r, parsed, (Record.ofText_agrees _ _ _ parsed).2 once r read, read⟩

end EntityGraph
