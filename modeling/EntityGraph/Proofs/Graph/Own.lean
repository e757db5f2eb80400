import EntityGraph.Proofs.Graph.Lasting
import EntityGraph.Proofs.Graph.Traces
import EntityGraph.Proofs.Record.State

/-! Nothing foreign comes into a graph: records of the schema's own types are stored and built as such. -/

namespace EntityGraph

open List

variable {F : Formulas} {find : Key → Option NodeId} {incoming : Field Stored}

/-- The values inside an own value are own. -/
theorem Schema.owns_inner {s : Schema} {v : Value} (own : s.owns v = true) : ∀ w ∈ v.inner, s.owns w = true := by
  intro w inside
  cases v with
  | record r =>
    simp only [Value.inner] at inside
    split at inside
    · have member := Value.mem_of_mem_kept inside
      simpa using (Schema.ownsRecord_iff.mp own).2.2 _ member
    · cases inside
  | list items =>
    exact Schema.owns_list.mp own w (by simpa [Value.inner] using inside)
  | map entries =>
    obtain ⟨⟨k, _⟩, listed, rfl⟩ := mem_filterMap.mp inside
    exact Schema.owns_map.mp own k w listed
  | _ => cases inside

namespace Stored

variable {fields : List (Field Stored)} {records : NodeId → Record}

mutual

/-- All records in a stored value are of the schema's own types. -/
def isOwn (s : Schema) : Stored → Bool
  | .plain v => s.owns v
  | .link _ => true
  | .list items => areOwnItems s items
  | .map entries => areOwnEntries s entries
  | .inline r => isOwnRecord s r

/-- All records in the elements of a stored list are. -/
def areOwnItems (s : Schema) : List (Option Stored) → Bool
  | [] => true
  | some st :: rest => isOwn s st && areOwnItems s rest
  | none :: rest => areOwnItems s rest

/-- All records in the entries of a stored map are. -/
def areOwnEntries (s : Schema) : List (String × Option Stored) → Bool
  | [] => true
  | (_, some st) :: rest => isOwn s st && areOwnEntries s rest
  | (_, none) :: rest => areOwnEntries s rest

/-- A stored record and all records in it are. -/
def isOwnRecord (s : Schema) : RecordOf Stored → Bool
  | ⟨layout, fields⟩ =>
    s.type? layout.name == some layout && fields.length == layout.fields.length && areOwnFields s fields

/-- All records in stored fields are. -/
def areOwnFields (s : Schema) : List (Field Stored) → Bool
  | [] => true
  | .value st :: rest => isOwn s st && areOwnFields s rest
  | .null :: rest => areOwnFields s rest
  | .absent :: rest => areOwnFields s rest

end

variable {s : Schema}

theorem areOwnItems_iff {items : List (Option Stored)} :
    areOwnItems s items = true ↔ ∀ st, some st ∈ items → isOwn s st = true := by
  induction items with
  | nil => simp [areOwnItems]
  | cons item rest ih => cases item <;> simp [areOwnItems, ih]

theorem areOwnEntries_iff {entries : List (String × Option Stored)} :
    areOwnEntries s entries = true ↔ ∀ k st, (k, some st) ∈ entries → isOwn s st = true := by
  induction entries with
  | nil => simp [areOwnEntries]
  | cons e rest ih =>
    rcases e with ⟨k, item⟩
    cases item <;> simp [areOwnEntries, ih, or_imp, forall_and]

theorem areOwnFields_cons {f : Field Stored} :
    areOwnFields s (f :: fields) = (areOwnFields s [f] && areOwnFields s fields) := by
  cases f <;> simp [areOwnFields]

theorem areOwnFields_iff : areOwnFields s fields = true ↔ ∀ f ∈ fields, areOwnFields s [f] = true := by
  induction fields with
  | nil => simp [areOwnFields]
  | cons f rest ih => rw [areOwnFields_cons, Bool.and_eq_true, ih, forall_mem_cons]

theorem areOwnFields_of_values (own : ∀ st, .value st ∈ fields → isOwn s st = true) : areOwnFields s fields = true := by
  refine areOwnFields_iff.mpr fun f member => ?_
  cases f with
  | value st => simp [areOwnFields, own st member]
  | _ => simp [areOwnFields]

/-- What is stored of an own value is own. -/
theorem isOwn_ofValue? (v : Value) {st : Stored} (own : s.owns v = true)
    (stored : ofValue? find v = some st) : isOwn s st = true := by
  induction v using Value.induct_inner generalizing st with
  | node r identifiable _ =>
    simp only [ofValue?, identifiable, if_true, Option.map_eq_some_iff] at stored
    obtain ⟨id, -, rfl⟩ := stored
    rw [isOwn]
  | rest v part ih =>
    have inside : ∀ t ∈ st.inner, isOwn s t = true := by
      intro t there
      obtain ⟨w, here, image⟩ := exists_mem_of_forall₂ (inner_ofValue? part stored).1 there
      exact ih w here (Schema.owns_inner own w here) image
    cases v with
    | record r =>
      rcases of_ofValue?_record part stored with ⟨-, parts, found, rfl⟩ | ⟨-, rfl⟩
      · obtain ⟨type, length, -⟩ := Schema.ownsRecord_iff.mp own
        have fields := areOwnFields_of_values fun t member => inside t (mem_filterMap.mpr ⟨_, member, rfl⟩)
        simp [isOwn, isOwnRecord, type, (leftOut_ofFields? length found).length_eq.symm, fields]
      · rwa [isOwn]
    | list items =>
      rw [ofValue?] at stored
      obtain ⟨parts, -, rfl⟩ := Option.map_eq_some_iff.mp stored
      rw [isOwn, areOwnItems_iff]
      exact fun t member => inside t (by simpa [inner] using member)
    | map entries =>
      rw [ofValue?] at stored
      obtain ⟨parts, -, rfl⟩ := Option.map_eq_some_iff.mp stored
      rw [isOwn, areOwnEntries_iff]
      exact fun k t member => inside t (mem_filterMap.mpr ⟨_, member, rfl⟩)
    | _ =>
      simp only [ofValue?, Option.some.injEq] at stored
      subst stored
      rwa [isOwn]

/-- What is built of an own value is own, if what its links stand for is. -/
theorem owns_expand (keep : F.KeepOwn s) (st : Stored) (own : isOwn s st = true)
    (known : ∀ c ∈ st.links, s.ownsRecord (records c) = true) : s.owns (expand F records st) = true := by
  induction st using Stored.induct with
  | plain v =>
    rw [isOwn] at own
    rwa [expand]
  | link id =>
    rw [expand, Schema.owns_record]
    exact known id (by simp [links])
  | list items ih =>
    rw [isOwn, areOwnItems_iff] at own
    rw [expand, Schema.owns_list, expandItems_eq]
    intro v member
    obtain ⟨item, listed, same⟩ := mem_map.mp member
    obtain ⟨st, rfl, rfl⟩ := Option.map_eq_some_iff.mp same
    exact ih st listed (own st listed) fun c link => known c (by
      rw [links]
      exact mem_itemLinks.mpr ⟨st, listed, link⟩)
  | map entries ih =>
    rw [isOwn, areOwnEntries_iff] at own
    rw [expand, Schema.owns_map, expandEntries_eq]
    intro k v member
    obtain ⟨⟨k', item⟩, listed, same⟩ := mem_map.mp member
    simp only [Prod.mk.injEq] at same
    obtain ⟨st, rfl, rfl⟩ := Option.map_eq_some_iff.mp same.2
    exact ih k' st listed (own k' st listed) fun c link => known c (by
      rw [links]
      exact mem_entryLinks.mpr ⟨st, ⟨k', listed⟩, link⟩)
  | inline r ih =>
    rcases r with ⟨layout, fields⟩
    simp only [isOwn, isOwnRecord, Bool.and_eq_true, beq_iff_eq] at own
    rw [expand, Schema.owns_record, expandRecord, expandFields_eq]
    refine Schema.ownsRecord_derive keep (Schema.ownsRecord_iff.mpr ⟨own.1.1, by simp [own.1.2], fun f member => ?_⟩)
    obtain ⟨f', listed, rfl⟩ := mem_map.mp member
    cases f' with
    | value st =>
      have here := areOwnFields_iff.mp own.2 _ listed
      simp only [areOwnFields, Bool.and_true] at here
      rw [expandField, Schema.ownsField_value]
      exact ih st listed here fun c link => known c (by
        rw [links, recordLinks]
        exact mem_fieldLinks.mpr ⟨st, listed, link⟩)
    | _ => rfl

theorem owns_expandRecord (keep : F.KeepOwn s) (r : RecordOf Stored)
    (own : isOwnRecord s r = true) (known : ∀ c ∈ recordLinks r, s.ownsRecord (records c) = true) :
    s.ownsRecord (expandRecord F records r) = true := by
  simpa [expand] using owns_expand keep (.inline r) (by rwa [isOwn]) (by rwa [links])

/-- What replaces an own field is own. -/
theorem areOwnFields_put (own : areOwnFields s fields = true)
    (new : areOwnFields s [incoming] = true) (i : Nat) : areOwnFields s (put fields i incoming) = true := by
  unfold put
  cases fields[i]? with
  | none => exact own
  | some current =>
    dsimp only
    split
    · exact own
    · refine areOwnFields_iff.mpr fun f member => ?_
      rcases mem_or_eq_of_mem_set member with old | rfl
      · exact areOwnFields_iff.mp own f old
      · exact new

end Stored

/-- What is written of an own field is own. -/
theorem Write.areOwnFields_image? {s : Schema} {w : Write} (own : s.ownsField w.field = true)
    (image : w.image? find = some incoming) : Stored.areOwnFields s [incoming] = true := by
  rcases w with ⟨key, position, field, linking⟩
  unfold Write.image? at image
  cases field with
  | absent => cases image; rfl
  | null => cases image; rfl
  | value v =>
    rw [Schema.ownsField_value] at own
    simp only at image
    split at image
    · obtain ⟨st, stored, rfl⟩ := Option.map_eq_some_iff.mp image
      simpa [Stored.areOwnFields] using Stored.isOwn_ofValue? v own stored
    · cases image
      simpa [Stored.areOwnFields, Stored.isOwn] using own

/-- What stands for a node of own fields is own. -/
theorem Graph.ownsRecord_standIn {s : Schema} (keep : F.KeepOwn s) {n : Node}
    (layout : s.type? n.layout.name = some n.layout) (length : n.fields.length = n.layout.fields.length)
    (own : Stored.areOwnFields s n.fields = true) : s.ownsRecord (standIn F n) = true := by
  -- Each identifying field is kept as it is, or left out.
  have general : ∀ (fields : List (Field Stored)) (infos : List FieldInfo), fields.length = infos.length →
      Stored.areOwnFields s fields = true →
      (ownIdentity fields infos).length = infos.length ∧ ∀ f ∈ ownIdentity fields infos, s.ownsField f = true := by
    intro fields
    induction fields with
    | nil =>
      intro infos length _
      cases infos with
      | nil => exact ⟨rfl, fun _ none => by cases none⟩
      | cons => cases length
    | cons f rest ih =>
      intro infos length own
      cases infos with
      | nil => cases length
      | cons info infos =>
        rw [Stored.areOwnFields_cons, Bool.and_eq_true] at own
        obtain ⟨length', fields'⟩ := ih infos (by simpa using length) own.2
        have head : ∃ h, ownIdentity (f :: rest) (info :: infos) = h :: ownIdentity rest infos ∧
            s.ownsField h = true := by
          cases identifying : info.identifying with
          | false => exact ⟨.absent, by simp [ownIdentity, identifying], rfl⟩
          | true =>
            cases f with
            | absent => exact ⟨.absent, by simp [ownIdentity, identifying], rfl⟩
            | null => exact ⟨.null, by simp [ownIdentity, identifying], rfl⟩
            | value st =>
              cases st with
              | plain v =>
                refine ⟨.value v, by simp [ownIdentity, identifying], ?_⟩
                simpa [Stored.areOwnFields, Stored.isOwn] using own.1
              | _ => exact ⟨.absent, by simp [ownIdentity], rfl⟩
        obtain ⟨h, split, owned⟩ := head
        rw [split, forall_mem_cons]
        exact ⟨by simp [length'], owned, fields'⟩
  obtain ⟨length', fields⟩ := general n.fields n.layout.fields length own
  exact Schema.ownsRecord_derive keep (Schema.ownsRecord_iff.mpr ⟨layout, length', fields⟩)

end EntityGraph
