import EntityGraph.Ordered
import Mathlib.Data.List.Basic
import Mathlib.Data.List.Forall2
import Mathlib.Data.List.Nodup

/-! Laws of increasing lists, of tables kept as lists of bindings, and of lists that run in step. -/

namespace EntityGraph

open List

namespace Ordered

variable {lt : α → α → Bool} {a b : α} {items : List α}

/-- An element is in a set after an insertion if it was there or is the one inserted. -/
theorem mem_insert (total : ∀ a b, lt a b = false → lt b a = false → a = b) (a b : α) (items : List α) :
    a ∈ insert lt b items ↔ a = b ∨ a ∈ items := by
  induction items with
  | nil => simp [insert]
  | cons c rest ih =>
    unfold insert
    -- The element goes before the head, behind it, or is the head.
    split
    · simp
    · split
      · simp only [mem_cons, ih]
        tauto
      · -- The element is already there, at the head.
        rename_i before after
        have same : b = c := total b c (by simpa using before) (by simpa using after)
        subst same
        simp

/-- Inserting an element that is told apart from all others only adds it. -/
theorem perm_insert (apart : ∀ b ∈ items, lt a b = true ∨ lt b a = true) : (insert lt a items).Perm (a :: items) := by
  induction items with
  | nil => exact .refl _
  | cons b rest ih =>
    unfold insert
    split
    · exact .refl _
    · rename_i before
      have after : lt b a = true := (apart b mem_cons_self).resolve_left before
      rw [if_pos after]
      -- The element goes behind the head, which then changes places with it.
      have later := ih fun c member => apart c (.tail _ member)
      exact (later.cons b).trans (.swap a b rest)

/-- Putting elements in order loses none of them if any two are told apart. -/
theorem perm_ofList (apart : items.Pairwise fun a b => lt a b = true ∨ lt b a = true) :
    (ofList lt items).Perm items := by
  -- Elements are inserted one by one, each next to those that were inserted before it.
  have general : ∀ (items sorted : List α), (sorted ++ items).Pairwise (fun a b => lt a b = true ∨ lt b a = true) →
      (items.foldl (fun sorted a => insert lt a sorted) sorted).Perm (sorted ++ items) := by
    intro items
    induction items with
    | nil => intro sorted _; simp
    | cons a rest ih =>
      intro sorted apart
      have told : ∀ b ∈ sorted, lt a b = true ∨ lt b a = true := fun b member =>
        ((pairwise_append.mp apart).2.2 b member a mem_cons_self).symm
      have inserted := perm_insert told
      -- Being told apart does not depend on the order.
      have moved : (insert lt a sorted ++ rest).Perm (sorted ++ a :: rest) :=
        (inserted.append_right rest).trans perm_middle.symm
      have still := (moved.symm.pairwise_iff fun told => told.symm).mp apart
      exact (ih _ still).trans moved
  exact general items [] apart

theorem of_mem_insert (member : a ∈ insert lt b items) : a = b ∨ a ∈ items := by
  induction items with
  | nil => simpa [insert] using member
  | cons c rest ih =>
    unfold insert at member
    split at member
    · simpa using member
    · split at member
      · -- Behind the head the insertion goes on.
        rcases mem_cons.mp member with rfl | later
        · exact Or.inr mem_cons_self
        · rcases ih later with same | there
          · exact Or.inl same
          · exact Or.inr (.tail _ there)
      · exact Or.inr member

/-- The elements in order are the elements. -/
theorem of_mem_ofList (member : a ∈ ofList lt items) : a ∈ items := by
  -- The elements are inserted one by one into what is sorted so far.
  refine List.foldlRecOn (motive := fun sorted => ∀ a ∈ sorted, a ∈ items) items _ (by simp) ?_ a member
  intro sorted inside b there a before
  rcases of_mem_insert before with rfl | earlier
  · exact there
  · exact inside a earlier

variable (trans : ∀ a b c, lt a b = true → lt b c = true → lt a c = true)
include trans

/-- Inserting an element keeps a list in order. -/
theorem pairwise_insert (sorted : items.Pairwise fun a b => lt a b = true) :
    (insert lt a items).Pairwise fun a b => lt a b = true := by
  induction items with
  | nil => exact pairwise_singleton _ _
  | cons b rest ih =>
    have ⟨first, later⟩ := pairwise_cons.mp sorted
    unfold insert
    split
    · rename_i before
      refine pairwise_cons.mpr ⟨fun c member => ?_, sorted⟩
      rcases mem_cons.mp member with rfl | behind
      · exact before
      · exact trans a b c before (first c behind)
    · split
      · rename_i after
        refine pairwise_cons.mpr ⟨fun c member => ?_, ih later⟩
        rcases of_mem_insert member with rfl | behind
        · exact after
        · exact first c behind
      · exact sorted

/-- Elements that are put in order are in order. -/
theorem pairwise_ofList (items : List α) : (ofList lt items).Pairwise fun a b => lt a b = true :=
  List.foldlRecOn items _ .nil fun _ sorted _ _ => pairwise_insert trans sorted

end Ordered

theorem mem_of_lookup [DecidableEq κ] {entries : List (κ × α)} {key : κ} {value : α}
    (found : entries.lookup key = some value) : (key, value) ∈ entries := by
  obtain ⟨before, after, split, -⟩ := lookup_eq_some_iff.mp found
  simp [split]

namespace Entries

variable {other : String}

section Head

variable {key k : String} {value u : α} {rest : List (String × α)}

theorem insert_cons_of_lt (before : key < k) : insert key value ((k, u) :: rest) = (key, value) :: (k, u) :: rest := by
  rw [insert, if_pos before]

theorem insert_cons_of_gt (behind : k < key) : insert key value ((k, u) :: rest) = (k, u) :: insert key value rest := by
  rw [insert, if_neg (String.lt_asymm behind), if_pos behind]

theorem insert_cons_self : insert key value ((key, u) :: rest) = (key, value) :: rest := by
  rw [insert, if_neg (String.lt_irrefl key), if_neg (String.lt_irrefl key)]

end Head

theorem lt_trichotomy (a b : String) : a < b ∨ a = b ∨ b < a := by
  by_cases less : a < b
  · exact Or.inl less
  · by_cases greater : b < a
    · exact Or.inr (Or.inr greater)
    · exact Or.inr (Or.inl (String.le_antisymm (String.not_lt.mp greater) (String.not_lt.mp less)))

/-- A key passes smaller ones until it comes to a larger one, to itself or to the end. -/
@[elab_as_elim]
theorem insert_induct (key : String) {P : List (String × α) → Prop} (nil : P [])
    (front : ∀ k v rest, key < k → P ((k, v) :: rest)) (behind : ∀ k v rest, k < key → P rest → P ((k, v) :: rest))
    (same : ∀ v rest, P ((key, v) :: rest)) (entries : List (String × α)) : P entries := by
  induction entries with
  | nil => exact nil
  | cons e rest ih =>
    rcases e with ⟨k, v⟩
    rcases lt_trichotomy key k with less | rfl | greater
    · exact front k v rest less
    · exact same v rest
    · exact behind k v rest greater ih

/-- A key that was just bound has its new value. -/
theorem find?_insert_self (key : String) (value : α) (entries : List (String × α)) :
    find? key (insert key value entries) = some value := by
  induction entries using insert_induct key with
  | nil => simp [insert, find?]
  | front k v rest less => simp [insert_cons_of_lt less, find?]
  | behind k v rest greater ih =>
    have other : (key == k) = false := beq_false_of_ne (Std.ne_of_lt greater).symm
    simpa [insert_cons_of_gt greater, find?, lookup_cons, other] using ih
  | same v rest => simp [insert_cons_self, find?]

/-- Binding a key leaves the other keys alone. -/
theorem find?_insert_of_ne {key : String} (ne : other ≠ key) (value : α) (entries : List (String × α)) :
    find? other (insert key value entries) = find? other entries := by
  have differs : (other == key) = false := by simpa using ne
  induction entries using insert_induct key with
  | nil => simp [insert, find?, lookup_cons, differs]
  | front k v rest less => simp [insert_cons_of_lt less, find?, lookup_cons, differs]
  | behind k v rest greater ih =>
    simp only [insert_cons_of_gt greater, find?, lookup_cons] at ih ⊢
    rw [ih]
  | same v rest => simp [insert_cons_self, find?, lookup_cons, differs]

/-- Two keys may be bound in either order. -/
theorem insert_comm {key : String} (ne : key ≠ other) (value value' : α) (entries : List (String × α)) :
    insert key value (insert other value' entries) = insert other value' (insert key value entries) := by
  have ordered : ∀ {small large : String} (v w : α), small < large →
      insert small v (insert large w entries) = insert large w (insert small v entries) := by
    intro small large v w less
    induction entries using insert_induct small with
    | nil => rw [insert, insert_cons_of_lt less, insert, insert_cons_of_gt less, insert]
    | front k u rest before =>
      -- The smaller key stops at the head, whatever the larger one does.
      rw [insert_cons_of_lt before, insert_cons_of_gt less]
      rcases lt_trichotomy large k with before' | rfl | behind'
      · rw [insert_cons_of_lt before', insert_cons_of_lt less]
      · rw [insert_cons_self, insert_cons_of_lt before]
      · rw [insert_cons_of_gt behind', insert_cons_of_lt before]
    | same u rest => rw [insert_cons_of_gt less, insert_cons_self, insert_cons_self, insert_cons_of_gt less]
    | behind k u rest behind ih =>
      -- Both keys pass the head.
      have behind' : k < large := String.lt_trans behind less
      rw [insert_cons_of_gt behind', insert_cons_of_gt behind, insert_cons_of_gt behind,
        insert_cons_of_gt behind', ih]
  -- Of two keys one is the smaller, and it does not matter which.
  rcases lt_trichotomy key other with less | same | greater
  · exact ordered value value' less
  · exact absurd same ne
  · exact (ordered value' value greater).symm

section Insert

variable {key : String} {value : α} {entries : List (String × α)} {e : String × α}

/-- Binding a key behind all others adds it at the end. -/
theorem insert_of_lt (last : ∀ e ∈ entries, e.1 < key) : insert key value entries = entries ++ [(key, value)] := by
  induction entries with
  | nil => rfl
  | cons e rest ih =>
    have ⟨before, others⟩ := forall_mem_cons.mp last
    rw [insert_cons_of_gt before, ih others, cons_append]

theorem mem_insert_self (key : String) (value : α) (entries : List (String × α)) :
    (key, value) ∈ insert key value entries :=
  mem_of_lookup (find?_insert_self key value entries)

/-- Binding a key keeps the entries of the other keys. -/
theorem mem_insert_of_mem (ne : e.1 ≠ key) (member : e ∈ entries) : e ∈ insert key value entries := by
  induction entries using insert_induct key with
  | nil => cases member
  | front k v rest less => simp [insert_cons_of_lt less, member]
  | behind k v rest greater ih =>
    rw [insert_cons_of_gt greater]
    exact mem_cons.mpr ((mem_cons.mp member).imp_right ih)
  | same v rest =>
    -- The head makes way for the new entry, and the entry asked for is another one.
    rcases mem_cons.mp member with rfl | later
    · exact absurd rfl ne
    · simp [insert_cons_self, later]

/-- After a binding there are the new entry and old ones. -/
theorem of_mem_insert (member : e ∈ insert key value entries) : e = (key, value) ∨ e ∈ entries := by
  induction entries using insert_induct key with
  | nil => simpa [insert] using member
  | front k v rest less => simpa [insert_cons_of_lt less] using member
  | behind k v rest greater ih =>
    rw [insert_cons_of_gt greater] at member
    rcases mem_cons.mp member with rfl | later
    · exact Or.inr mem_cons_self
    · exact (ih later).imp_right (.tail _)
  | same v rest =>
    rw [insert_cons_self] at member
    exact (mem_cons.mp member).imp_right (.tail _)

/-- Binding a key keeps the keys in order. -/
theorem pairwise_insert (sorted : entries.Pairwise fun a b => a.1 < b.1) :
    (insert key value entries).Pairwise fun a b => a.1 < b.1 := by
  induction entries using insert_induct key with
  | nil => exact pairwise_singleton _ _
  | front k v rest less =>
    rw [insert_cons_of_lt less]
    refine pairwise_cons.mpr ⟨forall_mem_cons.mpr ⟨less, fun e behind => ?_⟩, sorted⟩
    exact String.lt_trans less ((pairwise_cons.mp sorted).1 e behind)
  | behind k v rest greater ih =>
    have ⟨first, later⟩ := pairwise_cons.mp sorted
    rw [insert_cons_of_gt greater]
    refine pairwise_cons.mpr ⟨fun e member => ?_, ih later⟩
    rcases of_mem_insert member with rfl | behind
    · exact greater
    · exact first e behind
  | same v rest =>
    rw [insert_cons_self]
    exact pairwise_cons.mpr (pairwise_cons.mp sorted)

theorem length_insert_le (key : String) (value : α) (entries : List (String × α)) :
    (insert key value entries).length ≤ entries.length + 1 := by
  induction entries using insert_induct key with
  | nil => exact Nat.le_refl _
  | front k v rest less => simp [insert_cons_of_lt less]
  | behind k v rest greater ih => simpa [insert_cons_of_gt greater] using ih
  | same v rest => simp [insert_cons_self]

/-- A key that is not bound adds an entry. -/
theorem length_insert_of_fresh (fresh : ∀ e ∈ entries, e.1 ≠ key) :
    (insert key value entries).length = entries.length + 1 := by
  induction entries using insert_induct key with
  | nil => rfl
  | front k v rest less => simp [insert_cons_of_lt less]
  | behind k v rest greater ih => simpa [insert_cons_of_gt greater] using ih (forall_mem_cons.mp fresh).2
  | same v rest => exact absurd rfl (fresh _ mem_cons_self)

end Insert

/-- Binding keys in order leaves the entries as they are. -/
theorem ofList_of_sorted {entries : List (String × α)} (sorted : entries.Pairwise fun a b => a.1 < b.1) :
    ofList entries = entries := by
  -- The entries bound so far stand in front of the others.
  have general : ∀ rest before : List (String × α), (before ++ rest).Pairwise (fun a b => a.1 < b.1) →
      rest.foldl (fun entries b => insert b.1 b.2 entries) before = before ++ rest := by
    intro rest
    induction rest with
    | nil => simp
    | cons e rest ih =>
      intro before sorted
      have last : ∀ b ∈ before, b.1 < e.1 := fun b member =>
        (pairwise_append.mp sorted).2.2 b member e mem_cons_self
      rw [foldl_cons, insert_of_lt last, ih _ (by simpa using sorted)]
      simp
  exact general entries [] sorted

/-- Binding a key and changing the values can change places. -/
theorem insert_map (f : α → β) (key : String) (value : α) (entries : List (String × α)) :
    insert key (f value) (entries.map fun e => (e.1, f e.2)) =
      (insert key value entries).map fun e => (e.1, f e.2) := by
  induction entries using insert_induct key with
  | nil => rfl
  | front k v rest less => simp [insert_cons_of_lt less]
  | behind k v rest greater ih => simp [insert_cons_of_gt greater, ih]
  | same v rest => simp [insert_cons_self]

/-- Ordering entries and changing their values can change places. -/
theorem ofList_map (f : α → β) (entries : List (String × α)) :
    ofList (entries.map fun e => (e.1, f e.2)) = (ofList entries).map fun e => (e.1, f e.2) := by
  rw [ofList, foldl_map, ofList]
  refine @foldl_hom _ _ _ (List.map fun e : String × α => (e.1, f e.2)) _ _ entries [] fun sorted e => ?_
  exact insert_map f e.1 e.2 sorted

theorem erase_of_fresh {key : String} {entries : List (String × α)} (fresh : ∀ e ∈ entries, e.1 ≠ key) :
    erase key entries = entries := by
  refine filter_eq_self.mpr fun e member => ?_
  simpa using fresh e member

/-- A key that was just bound is removed without a trace. -/
theorem erase_insert (key : String) (value : α) (entries : List (String × α)) :
    erase key (insert key value entries) = erase key entries := by
  induction entries using insert_induct key with
  | nil => simp [insert, erase]
  | front k v rest less => simp [insert_cons_of_lt less, erase]
  | behind k v rest greater ih =>
    simp only [insert_cons_of_gt greater, erase, filter_cons] at ih ⊢
    rw [ih]
  | same v rest => simp [insert_cons_self, erase]

/-- Removing a key first makes no difference to binding it. -/
theorem insert_erase {key : String} {value : α} {entries : List (String × α)}
    (sorted : entries.Pairwise fun a b => a.1 < b.1) :
    insert key value (erase key entries) = insert key value entries := by
  induction entries using insert_induct key with
  | nil => rfl
  | front k v rest less =>
    -- All keys are larger, so none of them is the one to remove.
    rw [erase_of_fresh (forall_mem_cons.mpr ⟨(Std.ne_of_lt less).symm, fun e behind => ?_⟩)]
    exact (Std.ne_of_lt (String.lt_trans less ((pairwise_cons.mp sorted).1 e behind))).symm
  | behind k v rest greater ih =>
    have kept : erase key ((k, v) :: rest) = (k, v) :: erase key rest := by simp [erase, Std.ne_of_lt greater]
    rw [kept, insert_cons_of_gt greater, insert_cons_of_gt greater, ih (pairwise_cons.mp sorted).2]
  | same v rest =>
    have ⟨first, later⟩ := pairwise_cons.mp sorted
    have fresh : erase key rest = rest := erase_of_fresh fun e member => (Std.ne_of_lt (first e member)).symm
    have dropped : erase key ((key, v) :: rest) = rest := by simpa [erase] using fresh
    rw [dropped, insert_cons_self]
    cases rest with
    | nil => rfl
    | cons e rest => exact insert_cons_of_lt (first e mem_cons_self)

/-- Tables with the same keys and related values stay so if related values are bound to the same key. -/
theorem forall₂_insert (related : α → β → Prop) {key : String} {a : α} {b : β} {entries : List (String × α)}
    {entries' : List (String × β)} (new : related a b)
    (old : Forall₂ (fun e e' => e.1 = e'.1 ∧ related e.2 e'.2) entries entries') :
    Forall₂ (fun e e' => e.1 = e'.1 ∧ related e.2 e'.2) (insert key a entries) (insert key b entries') := by
  induction old with
  | nil => exact .cons ⟨rfl, new⟩ .nil
  | @cons e e' rest rest' first others ih =>
    rcases e with ⟨k, v⟩
    rcases e' with ⟨k', v'⟩
    obtain ⟨rfl, same⟩ : k = k' ∧ related v v' := first
    unfold insert
    split
    · exact .cons ⟨rfl, new⟩ (.cons ⟨rfl, same⟩ others)
    · split
      · exact .cons ⟨rfl, same⟩ ih
      · exact .cons ⟨rfl, new⟩ others

end Entries

/-- Where no two elements have the same key, those in front of an element have another one. -/
theorem ne_of_nodup {key : α → κ} {before after : List α} {a b : α}
    (distinct : ((before ++ a :: after).map key).Nodup) (earlier : b ∈ before) : key b ≠ key a := by
  rw [map_append, map_cons, nodup_middle, nodup_cons] at distinct
  exact fun same => distinct.1 (mem_append_left _ (same ▸ mem_map_of_mem earlier))

/-- Where no two elements have the same key, a search by the key of one of them finds it. -/
theorem find?_of_mem [DecidableEq κ] (key : α → κ) {items : List α} {a : α} (distinct : (items.map key).Nodup)
    (member : a ∈ items) : (items.find? fun b => key b == key a) = some a := by
  obtain ⟨before, after, rfl⟩ := append_of_mem member
  refine find?_eq_some_iff_append.mpr ⟨by simp, before, after, rfl, fun b earlier => ?_⟩
  simpa using ne_of_nodup distinct earlier

/-- A table without repeated keys answers with each of its bindings. -/
theorem lookup_of_mem [DecidableEq κ] {entries : List (κ × α)} {key : κ} {value : α}
    (distinct : (entries.map Prod.fst).Nodup) (bound : (key, value) ∈ entries) : entries.lookup key = some value := by
  obtain ⟨before, after, rfl⟩ := append_of_mem bound
  refine lookup_eq_some_iff.mpr ⟨before, after, rfl, fun e earlier => ?_⟩
  simpa using (ne_of_nodup distinct earlier).symm

section Step

variable {related related' : α → β → Prop} {as : List α} {bs : List β} {f : α → Option β}

theorem exists_of_forall₂ (each : Forall₂ related as bs) {k : Nat} {b : β} (there : bs[k]? = some b) :
    ∃ a, as[k]? = some a ∧ related a b := by
  obtain ⟨inside, rfl⟩ := List.getElem?_eq_some_iff.mp there
  have inside' : k < as.length := by rwa [each.length_eq]
  exact ⟨as[k], getElem?_eq_getElem inside', each.get inside' inside⟩

theorem exists_mem_of_forall₂ (each : Forall₂ related as bs) {b : β} (member : b ∈ bs) : ∃ a ∈ as, related a b := by
  obtain ⟨k, there⟩ := mem_iff_getElem?.mp member
  obtain ⟨a, here, held⟩ := exists_of_forall₂ each there
  exact ⟨a, mem_of_getElem? here, held⟩

theorem forall₂_of_getElem? (size : as.length = bs.length)
    (each : ∀ (k : Nat) (a : α) (b : β), as[k]? = some a → bs[k]? = some b → related a b) : Forall₂ related as bs := by
  refine forall₂_iff_get.mpr ⟨size, fun k inside inside' => ?_⟩
  exact each k _ _ (getElem?_eq_getElem inside) (getElem?_eq_getElem inside')

theorem isEmpty_of_forall₂ (each : Forall₂ related as bs) : as.isEmpty = bs.isEmpty := by
  cases each <;> rfl

theorem forall₂_imp_mem (each : Forall₂ related as bs)
    (imp : ∀ a b, a ∈ as → b ∈ bs → related a b → related' a b) : Forall₂ related' as bs := by
  induction each with
  | nil => exact .nil
  | cons first _ ih =>
    exact .cons (imp _ _ mem_cons_self mem_cons_self first)
      (ih fun a b here there => imp a b (.tail _ here) (.tail _ there))

/-- Three lists in step. -/
theorem forall₂_comp {γ : Type} {cs : List γ} {related₂ : β → γ → Prop} {related₃ : α → γ → Prop}
    (first : Forall₂ related as bs) (second : Forall₂ related₂ bs cs)
    (comp : ∀ a b c, a ∈ as → b ∈ bs → c ∈ cs → related a b → related₂ b c → related₃ a c) :
    Forall₂ related₃ as cs := by
  induction first generalizing cs with
  | nil =>
    cases second
    exact .nil
  | cons here _ ih =>
    cases second with
    | cons there others =>
      exact .cons (comp _ _ _ mem_cons_self mem_cons_self mem_cons_self here there)
        (ih others fun a b c ha hb hc => comp a b c (.tail _ ha) (.tail _ hb)
          (.tail _ hc))

/-- Parts that are taken from lists in step are in step. -/
theorem forall₂_filterMap {α' β' : Type} {taken : α' → β' → Prop} {f : α → Option α'} {f' : β → Option β'}
    (each : Forall₂ related as bs) (part : ∀ a b, related a b → Option.Rel taken (f a) (f' b)) :
    Forall₂ taken (as.filterMap f) (bs.filterMap f') := by
  induction each with
  | nil => exact .nil
  | @cons a b _ _ first _ ih =>
    have parts := part a b first
    rw [filterMap_cons, filterMap_cons]
    generalize f a = x, f' b = y at parts ⊢
    cases parts with
    | none => exact ih
    | some held => exact .cons held ih

theorem mapM_eq_some_iff : as.mapM f = some bs ↔ Forall₂ (fun a b => f a = some b) as bs := by
  induction as generalizing bs with
  | nil => simp [eq_comm]
  | cons a rest ih =>
    simp only [mapM_cons, Option.bind_eq_bind, Option.bind_eq_some_iff, ih, forall₂_cons_left_iff]
    constructor
    · rintro ⟨b, first, others, later, same⟩
      exact ⟨b, others, first, later, (Option.some.inj same).symm⟩
    · rintro ⟨b, others, first, later, rfl⟩
      exact ⟨b, first, others, later, rfl⟩

theorem mapM_congr {f' : α → Option β} (same : ∀ a ∈ as, f a = f' a) : as.mapM f = as.mapM f' := by
  induction as with
  | nil => rfl
  | cons a rest ih =>
    rw [mapM_cons, mapM_cons, same a mem_cons_self,
      ih fun a later => same a (.tail _ later)]

theorem eq_of_forall₂ {related : α → α → Prop} {bs : List α} (each : Forall₂ related as bs)
    (same : ∀ a ∈ as, ∀ b, related a b → b = a) : bs = as := by
  induction each with
  | nil => rfl
  | cons first _ ih =>
    rw [same _ mem_cons_self _ first, ih fun a later => same a (.tail _ later)]

end Step

end EntityGraph
