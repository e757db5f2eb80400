import EntityGraph.Proofs.Record.State

/-! Diffs as tables: each entity has at most one change, which leads from the oldest of its snapshots to the newest.
Merging diffs composes what they tell of an entity. -/

namespace EntityGraph

open List

variable {key : Key} {other : Diff}

/-- A change that follows on another one of the entity, if there is one. -/
def Change.after (c : Change) (old : Option Change) : Change :=
  ⟨(old.map Change.was).getD c.was, c.is⟩

/-- The step from where the first of some changes starts to where the last one leads. -/
def Change.join? (cs : List Change) : Option Change := do
  let first ← cs.head?
  let last ← cs.getLast?
  return ⟨first.was, last.is⟩

theorem Change.isSome_join? (cs : List Change) : (join? cs).isSome = true ↔ cs ≠ [] := by
  cases cs with
  | nil => simp [join?]
  | cons c rest => simp [join?, getLast?_eq_some_getLast]

theorem Change.foldl_after (old : Option Change) (cs : List Change) :
    cs.foldl (fun old c => some (c.after old)) old = (((join? cs).map fun c => c.after old) <|> old) := by
  induction cs generalizing old with
  | nil => rfl
  | cons c rest ih =>
    rw [foldl_cons, ih]
    cases rest with
    | nil => rfl
    | cons c' rest => cases old <;> simp [join?, getLast?_eq_some_getLast, Change.after]

section List

variable {α : Type} [BEq α] [LawfulBEq α]

theorem eraseDups_concat (as : List α) (a : α) :
    (as ++ [a]).eraseDups = if a ∈ as then as.eraseDups else as.eraseDups ++ [a] := by
  rw [eraseDups_append]
  by_cases listed : a ∈ as <;> simp [List.removeAll, listed, eraseDups_cons]

theorem eraseDups_append_eraseDups (as bs : List α) : (as ++ bs.eraseDups).eraseDups = (as ++ bs).eraseDups := by
  induction bs using List.reverseRecOn with
  | nil => rfl
  | append_singleton bs b ih =>
    rw [eraseDups_concat, ← append_assoc as, eraseDups_concat (as ++ bs), ← ih]
    by_cases listed : b ∈ bs
    · simp [listed]
    · rw [if_neg listed, ← append_assoc, eraseDups_concat]
      simp [mem_eraseDups]

end List

namespace Diff

variable {d : Diff}

/-- The change of the entity with a key. -/
def at? (d : Diff) (key : Key) : Option Change :=
  d.changes.lookup key

/-- Each key stands once, and is that of its change's snapshot. -/
structure Keyed (d : Diff) : Prop where
  once : (d.changes.map Prod.fst).Nodup
  own : ∀ e ∈ d.changes, e.1 = e.2.is.key

theorem Keyed.empty : Keyed empty :=
  ⟨.nil, by simp [Diff.empty]⟩

theorem fst_update (key : Key) (is : Record) (e : Key × Change) : (update key is e).1 = e.1 := by
  unfold update
  split <;> rfl

/-- A key that is new stands last. -/
theorem keys_push (d : Diff) (c : Change) : (d.push c).changes.map Prod.fst =
    if c.is.key ∈ d.changes.map Prod.fst then d.changes.map Prod.fst else d.changes.map Prod.fst ++ [c.is.key] := by
  have listed : (d.changes.any fun e => e.1 == c.is.key) = true ↔ c.is.key ∈ d.changes.map Prod.fst := by
    simp [any_eq_true]
  unfold push
  simp only [listed]
  split
  · simp only [map_map]
    exact map_congr_left fun e _ => fst_update _ _ e
  · simp

/-- One change more keeps each key once. -/
theorem Keyed.push (keyed : d.Keyed) (c : Change) : (d.push c).Keyed := by
  refine ⟨?_, fun e member => ?_⟩
  · rw [keys_push]
    split
    · exact keyed.once
    · rename_i fresh
      exact nodup_append_comm.mp (nodup_cons.mpr ⟨fresh, keyed.once⟩)
  · unfold Diff.push at member
    dsimp only at member
    split at member
    · obtain ⟨e', listed, rfl⟩ := mem_map.mp member
      unfold update
      split
      · assumption
      · exact keyed.own e' listed
    · rcases mem_append.mp member with listed | added
      · exact keyed.own e listed
      · rw [mem_singleton.mp added]

theorem Keyed.foldl_push (keyed : d.Keyed) (cs : List Change) : (cs.foldl Diff.push d).Keyed := by
  induction cs generalizing d with
  | nil => exact keyed
  | cons c rest ih => exact ih (keyed.push c)

/-- So does merging. -/
theorem Keyed.merge (keyed : d.Keyed) (other : Diff) : (d.merge other).Keyed :=
  keyed.foldl_push other.toList

/-- The changes of an entity are the one that is found under its key. -/
theorem Keyed.filter_toList (keyed : d.Keyed) (key : Key) :
    d.toList.filter (fun c => c.is.key = key) = (d.at? key).toList := by
  rcases d with ⟨entries⟩
  rcases keyed with ⟨once, own⟩
  simp only [toList, at?] at once own ⊢
  induction entries with
  | nil => rfl
  | cons e rest ih =>
    rcases e with ⟨k, c⟩
    rw [map_cons, nodup_cons] at once
    rw [forall_mem_cons] at own
    have later := ih once.2 own.2
    have named : k = c.is.key := own.1
    rw [map_cons, filter_cons, lookup_cons, ← named]
    by_cases here : k = key
    · -- No other entry has this key.
      subst here
      have none : rest.lookup k = none := by
        rw [lookup_eq_none_iff]
        intro e member
        rw [bne_iff_ne]
        exact fun same => once.1 (mem_map.mpr ⟨e, member, same.symm⟩)
      rw [later, none]
      simp
    · have other : (key == k) = false := by simpa using Ne.symm here
      rw [later]
      simp [here, other]

theorem Keyed.at?_eq_some_iff (keyed : d.Keyed) {c : Change} : d.at? key = some c ↔ c ∈ d.toList ∧ c.is.key = key := by
  have member : c ∈ d.toList.filter (fun c => c.is.key = key) ↔ c ∈ d.toList ∧ c.is.key = key := by simp
  rw [← member, keyed.filter_toList, Option.mem_toList]

theorem lookup_map_update (key k : Key) (is : Record) (entries : List (Key × Change)) :
    (entries.map (update k is)).lookup key = (entries.lookup key).map fun c => if k = key then ⟨c.was, is⟩ else c := by
  induction entries with
  | nil => rfl
  | cons e rest ih =>
    rcases e with ⟨k', c⟩
    rw [map_cons, lookup_cons, lookup_cons, ih, fst_update]
    by_cases here : key = k'
    · subst here
      unfold update
      by_cases same : key = k
      · simp [same]
      · simp [same, Ne.symm same]
    · have passed : (key == k') = false := by simpa using here
      simp only [passed]

/-- A change that is recorded follows on the one that is there. -/
theorem at?_push (d : Diff) (c : Change) (key : Key) :
    (d.push c).at? key = if c.is.key = key then some (c.after (d.at? key)) else d.at? key := by
  unfold push at?
  dsimp only
  split
  · rename_i listed
    rw [lookup_map_update]
    split
    · rename_i same
      subst same
      obtain ⟨e, member, named⟩ := any_eq_true.mp listed
      cases found : d.changes.lookup c.is.key with
      | some old => simp [Change.after]
      | none =>
        rw [lookup_eq_none_iff] at found
        exact absurd (beq_iff_eq.mp named).symm (bne_iff_ne.mp (found e member))
    · simp
  · rename_i fresh
    have none : d.changes.lookup c.is.key = none := by
      rw [lookup_eq_none_iff]
      intro e member
      simp only [any_eq_true, beq_iff_eq, not_exists, not_and] at fresh
      simpa using Ne.symm (fresh e member)
    rw [lookup_append]
    split
    · rename_i same
      subst same
      simp [none, Change.after]
    · rename_i other
      have passed : (key == c.is.key) = false := by simpa using Ne.symm other
      simp [lookup_cons, passed]

/-- Recording changes one after the other concerns an entity only with its own ones. -/
theorem at?_foldl_push (d : Diff) (cs : List Change) (key : Key) :
    (cs.foldl push d).at? key =
      (cs.filter fun c => c.is.key = key).foldl (fun old c => some (c.after old)) (d.at? key) := by
  induction cs generalizing d with
  | nil => rfl
  | cons c rest ih =>
    rw [foldl_cons, ih, at?_push, filter_cons]
    by_cases here : c.is.key = key
    · simp [here]
    · simp [here]

/-- Merging composes what both tell of a key. -/
theorem at?_merge (d : Diff) (keyed : other.Keyed) (key : Key) :
    (d.merge other).at? key = (((other.at? key).map fun c => c.after (d.at? key)) <|> d.at? key) := by
  rw [merge, at?_foldl_push, keyed.filter_toList]
  cases other.at? key <;> rfl

/-- The diff of changes that are recorded one after the other. -/
def ofChanges (cs : List Change) : Diff :=
  cs.foldl push empty

/-- What changes tell of an entity: its own ones joined. -/
def summary? (cs : List Change) (key : Key) : Option Change :=
  Change.join? (cs.filter fun c => c.is.key = key)

theorem Keyed.ofChanges (cs : List Change) : (ofChanges cs).Keyed :=
  Keyed.empty.foldl_push cs

/-- A diff tells of a key what its changes sum up to. -/
theorem at?_ofChanges (cs : List Change) (key : Key) : (ofChanges cs).at? key = summary? cs key := by
  rw [ofChanges, at?_foldl_push, Change.foldl_after, summary?]
  cases Change.join? _ <;> rfl

/-- Keys stand in the order of first appearance. -/
theorem keys_ofChanges (cs : List Change) :
    (ofChanges cs).changes.map Prod.fst = (cs.map fun c => c.is.key).eraseDups := by
  induction cs using List.reverseRecOn with
  | nil => rfl
  | append_singleton cs c ih =>
    have last : ofChanges (cs ++ [c]) = (ofChanges cs).push c := foldl_concat ..
    rw [last, keys_push, ih, map_append, map_singleton, eraseDups_concat]
    simp only [mem_eraseDups]

theorem Keyed.entries_eq (keyed : d.Keyed) :
    d.changes.map (fun e => (e.1, some e.2)) = (d.changes.map Prod.fst).map fun key => (key, d.at? key) := by
  rw [map_map]
  refine map_congr_left fun e member => Prod.ext rfl ?_
  exact (keyed.at?_eq_some_iff.mpr ⟨mem_map_of_mem member, (keyed.own e member).symm⟩).symm

/-- A diff is known from its keys in their order and from what it tells of each. -/
theorem Keyed.ext {d' : Diff} (keyed : d.Keyed) (keyed' : d'.Keyed)
    (keys : d.changes.map Prod.fst = d'.changes.map Prod.fst) (same : ∀ key, d.at? key = d'.at? key) : d = d' := by
  have entries := keyed.entries_eq
  simp only [keys, same, ← keyed'.entries_eq] at entries
  have injective : Function.Injective fun e : Key × Change => (e.1, some e.2) := by
    rintro ⟨k, c⟩ ⟨k', c'⟩ equal
    simpa using equal
  exact congrArg Diff.mk (map_injective_iff.mpr injective entries)

/-- Changes that were folded before are as good as the changes themselves. -/
theorem merge_ofChanges (xs ys : List Change) : (ofChanges xs).merge (ofChanges ys) = ofChanges (xs ++ ys) := by
  have keyed := Keyed.ofChanges ys
  refine ((Keyed.ofChanges xs).merge _).ext (.ofChanges _) ?_ fun key => ?_
  · -- Keys that come again are dropped, in the second diff or when it is merged.
    have joined : (ofChanges xs).merge (ofChanges ys) = ofChanges (xs ++ (ofChanges ys).toList) :=
      (foldl_append ..).symm
    have own : (ofChanges ys).toList.map (fun c => c.is.key) = (ofChanges ys).changes.map Prod.fst := by
      rw [toList, map_map]
      exact map_congr_left fun e member => (keyed.own e member).symm
    rw [joined, keys_ofChanges, keys_ofChanges, map_append, map_append, own, keys_ofChanges,
      eraseDups_append_eraseDups]
  · -- What the second diff tells of a key is its changes joined, and so is what is added to the first.
    have joined : ofChanges (xs ++ ys) = ys.foldl push (ofChanges xs) := foldl_append ..
    rw [at?_merge _ keyed, at?_ofChanges ys, joined, at?_foldl_push, Change.foldl_after, summary?]

/-- Diffs that changes are recorded in, and that are then merged. -/
inductive Grouping where
  | recorded (cs : List Change)
  | merged (first second : Grouping)

namespace Grouping

/-- The diff that comes out in the end. -/
def diff : Grouping → Diff
  | recorded cs => ofChanges cs
  | merged first second => first.diff.merge second.diff

/-- All changes that were recorded, in order. -/
def changes : Grouping → List Change
  | recorded cs => cs
  | merged first second => first.changes ++ second.changes

/-- However changes are grouped, they are recorded in order. -/
theorem diff_eq (g : Grouping) : g.diff = ofChanges g.changes := by
  induction g with
  | recorded cs => rfl
  | merged first second ih ih' => rw [diff, ih, ih', merge_ofChanges, changes]

end Grouping

/-- A diff has one change for each key that was recorded, in the order of first appearance, from where the first change
with the key starts to where the last one leads. Any record with the key finds it. Merging diffs records the changes of
one after those of the other, and however changes are grouped, the result is the same. -/
theorem ofChanges_folds (cs : List Change) (g h : Grouping) :
    (ofChanges cs).changes.map (fun e => (e.1, some e.2)) =
        (cs.map fun c => c.is.key).eraseDups.map (fun key => (key, summary? cs key)) ∧
      (∀ x, (ofChanges cs).find? x = summary? cs x.key ∧
        ((summary? cs x.key).isSome = true ↔ ∃ c ∈ cs, c.is.key = x.key)) ∧
      g.diff.merge h.diff = ofChanges (g.diff.toList ++ h.diff.toList) ∧ g.diff = ofChanges g.changes := by
  refine ⟨?_, fun x => ⟨at?_ofChanges cs x.key, ?_⟩, ?_, g.diff_eq⟩
  · simp only [(Keyed.ofChanges cs).entries_eq, keys_ofChanges, at?_ofChanges]
  · simp [summary?, Change.isSome_join?]
  · have again : ofChanges g.diff.toList = g.diff := by
      rw [g.diff_eq]
      exact merge_ofChanges [] g.changes
    rw [ofChanges, foldl_append, ← ofChanges, again]
    rfl

/-- Changes in order, with an index of the positions at which entities have theirs. -/
structure Indexed where
  changes : List Change
  index : List (Key × Nat)

namespace Indexed

/-- Records a change at the position of its entity, or as the last one. -/
def push (x : Indexed) (c : Change) : Indexed :=
  match x.index.lookup c.is.key with
  | some i => { x with changes := x.changes.modify i fun old => ⟨old.was, c.is⟩ }
  | none => ⟨x.changes ++ [c], (c.is.key, x.changes.length) :: x.index⟩

/-- The change at the position of the entity that a record identifies. -/
def find? (x : Indexed) (r : Record) : Option Change :=
  (x.index.lookup r.key).bind fun i => x.changes[i]?

/-- The changes with their keys. -/
def diff (x : Indexed) : Diff :=
  ⟨x.changes.map fun c => (c.is.key, c)⟩

/-- The index leads to the change with the key, and there is no other one. -/
def Agrees (x : Indexed) : Prop :=
  ∀ key i, x.index.lookup key = some i ↔ (x.changes[i]?.map fun c => c.is.key) = some key

variable {x : Indexed}

/-- Recording a change by the index is recording it. -/
theorem Agrees.push (agrees : x.Agrees) (c : Change) : (x.push c).Agrees ∧ (x.push c).diff = x.diff.push c := by
  have listed : (x.diff.changes.any fun e => e.1 == c.is.key) = true ↔ ∃ i, x.index.lookup c.is.key = some i := by
    simp only [diff, any_map, any_eq_true, Function.comp_apply, beq_iff_eq, agrees _ _,
      Option.map_eq_some_iff, mem_iff_getElem?]
    constructor
    · rintro ⟨a, ⟨i, here⟩, named⟩
      exact ⟨i, a, here, named⟩
    · rintro ⟨i, a, here, named⟩
      exact ⟨a, ⟨i, here⟩, named⟩
  unfold Indexed.push Diff.push
  cases found : x.index.lookup c.is.key with
  | some i =>
    rw [if_pos (listed.mpr ⟨i, found⟩)]
    -- The position is the only one with the key, and keeps it.
    have only : ∀ j a, x.changes[j]? = some a → (i = j ↔ a.is.key = c.is.key) := by
      intro j a here
      refine ⟨fun same => ?_, fun same => ?_⟩
      · subst same
        simpa [here] using (agrees _ _).mp found
      · have there := (agrees _ j).mpr (by rw [here, Option.map_some, same])
        rw [found] at there
        exact Option.some.inj there
    constructor
    · intro key j
      rw [agrees]
      simp only [getElem?_modify]
      cases here : x.changes[j]? with
      | none => rfl
      | some a =>
        by_cases same : i = j
        · simp [same, (only j a here).mp same]
        · simp [same]
    · simp only [diff, Diff.mk.injEq]
      apply ext_getElem?
      intro j
      simp only [getElem?_map, getElem?_modify]
      cases here : x.changes[j]? with
      | none => rfl
      | some a =>
        by_cases same : i = j
        · simp [same, update, (only j a here).mp same]
        · have other : ¬ a.is.key = c.is.key := fun named => same ((only j a here).mpr named)
          simp [same, update, other]
  | none =>
    rw [if_neg fun some => by simp [listed, found] at some]
    refine ⟨fun key i => ?_, by simp [diff]⟩
    -- The new key has the last position, and the others stay.
    rw [lookup_cons]
    by_cases new : key = c.is.key
    · subst new
      have other : (x.changes[i]?.map fun a => a.is.key) ≠ some c.is.key := fun here => by
        rw [(agrees _ _).mpr here] at found
        cases found
      grind
    · have passed : (key == c.is.key) = false := by simpa using new
      have there := agrees key i
      grind

/-- What the index finds is what the diff finds. -/
theorem Agrees.find?_eq (agrees : x.Agrees) (keyed : x.diff.Keyed) (r : Record) : x.find? r = x.diff.find? r := by
  apply Option.ext
  intro c
  have same : x.diff.toList = x.changes := by simp [toList, diff, Function.comp_def]
  rw [Diff.find?, ← at?, keyed.at?_eq_some_iff, same, find?, Option.bind_eq_some_iff, mem_iff_getElem?]
  simp only [agrees _ _]
  constructor
  · rintro ⟨i, named, here⟩
    rw [here] at named
    exact ⟨⟨i, here⟩, Option.some.inj named⟩
  · rintro ⟨⟨i, here⟩, named⟩
    exact ⟨i, by rw [here, Option.map_some, named], here⟩

/-- Recording changes by the index gives the same changes, and finds them as the diff does. -/
theorem foldl_push (cs : List Change) :
    (cs.foldl push ⟨[], []⟩).changes = (ofChanges cs).toList ∧
      ∀ r, (cs.foldl push ⟨[], []⟩).find? r = (ofChanges cs).find? r := by
  have general : ∀ x : Indexed, x.Agrees →
      (cs.foldl push x).Agrees ∧ (cs.foldl push x).diff = cs.foldl Diff.push x.diff := by
    induction cs with
    | nil => exact fun x agrees => ⟨agrees, rfl⟩
    | cons c rest ih =>
      intro x agrees
      obtain ⟨still, same⟩ := agrees.push c
      rw [foldl_cons, foldl_cons, ← same]
      exact ih _ still
  obtain ⟨agrees, same⟩ := general ⟨[], []⟩ fun key i => by simp
  change _ = ofChanges cs at same
  refine ⟨?_, fun r => ?_⟩
  · rw [← same]
    simp [toList, diff, Function.comp_def]
  · rw [agrees.find?_eq (same ▸ .ofChanges cs), same]

end Indexed

end Diff

/-- Own snapshots of an entity that are equal in state, or none at all. -/
def Alike (s : Schema) : Option Record → Option Record → Prop :=
  Option.Rel fun a b => s.ownsRecord a = true ∧ s.ownsRecord b = true ∧ a.equals .state b = true

namespace Alike

variable {s : Schema} (accepted : s.Accepted) {a : Option Record}
include accepted

theorem refl (own : ∀ r, a = some r → s.ownsRecord r = true) : Alike s a a := by
  cases a with
  | none => exact .none
  | some r => exact .some ⟨own r rfl, own r rfl, recordEquals_refl accepted r (own r rfl)⟩

theorem trans {b c : Option Record} (first : Alike s a b) (second : Alike s b c) : Alike s a c := by
  cases first with
  | none => exact second
  | some first =>
    cases second with
    | some second =>
      obtain ⟨ownₐ, ownᵦ, equal⟩ := first
      obtain ⟨-, own, equal'⟩ := second
      exact .some ⟨ownₐ, own, recordEquals_trans accepted (by decide) ownₐ ownᵦ own equal equal'⟩

end Alike

namespace Diff

/-- What the diff tells of an entity that had one snapshot and has another now: nothing if they are equal in state, else
a change from the one to the other. -/
inductive Tells (s : Schema) (d : Diff) (key : Key) (first last : Option Record) : Prop where
  | nothing (none : d.at? key = none) (same : Alike s first last) : Tells s d key first last
  | change {c : Change} (found : d.at? key = some c) (was : Alike s first c.was) (is : Alike s (some c.is) last) :
      Tells s d key first last

/-- What one diff tells up to a snapshot and another one from there, both tell when they are merged. -/
theorem Tells.merge {s : Schema} (accepted : s.Accepted) {d : Diff} {first middle last : Option Record}
    (before : d.Tells s key first middle) (keyed : other.Keyed) (after : other.Tells s key middle last) :
    (d.merge other).Tells s key first last := by
  have merged := at?_merge d keyed key
  cases before with
  | nothing none same =>
    rw [none] at merged
    cases after with
    | nothing none' same' =>
      rw [none'] at merged
      exact .nothing merged (same.trans accepted same')
    | change found was is =>
      rw [found] at merged
      exact .change merged (same.trans accepted was) is
  | change found was is =>
    rw [found] at merged
    cases after with
    | nothing none' same' =>
      rw [none'] at merged
      exact .change merged was (is.trans accepted same')
    | change found' _ is' =>
      rw [found'] at merged
      exact .change merged was is'

end Diff

end EntityGraph
