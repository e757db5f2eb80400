import EntityGraph.Proofs.Graph.Met
import EntityGraph.Proofs.Graph.Survival
import EntityGraph.Proofs.Graph.Typed

/-! What a failed absorption leaves of the nodes that were there: a node that nothing links to is left unless the record
carries its key, or it was queued before. -/

namespace EntityGraph

open List

variable {r : Record} {done acts : List Act}

namespace Acts

variable {s : Schema} {w : Write}

/-- Merging the first record meets the second one inside it. -/
def Inside (s : Schema) (r inner : Record) : Prop :=
  .meet inner ∈ (ofRecord s r).tail

/-- What storing the field of a write does has been done, or is among the acts. -/
theorem Ready.of_write (ready : Ready s done acts) (member : .write w ∈ acts)
    (linking : w.linking = true) : ofField s w.field ⊆ done ++ acts := by
  induction acts generalizing done with
  | nil => simp at member
  | cons act rest ih =>
    obtain ⟨first, later⟩ := ready
    rcases mem_cons.mp member with rfl | behind
    -- What has been done before the first act is known, and the first act is known for the others.
    · exact fun other met => mem_append_left _ (first w rfl linking met)
    · have among := ih later behind
      rwa [append_assoc, singleton_append] at among

/-- What a write of a merged record links to is inside the record. -/
theorem inside_of_write {inner : Record} (member : .write w ∈ ofRecord s r)
    (linking : w.linking = true) (met : .meet inner ∈ ofField s w.field) : Inside s r inner := by
  -- The first act is the meeting of the record itself, which is no write.
  simp only [Inside, ofRecord_eq, tail_cons, mem_cons, reduceCtorEq, false_or] at member ⊢
  exact ((merges_merging s r).ready []).of_write member linking met

/-- What is written while a record is merged is written to its node, or to that of a record inside it. -/
theorem key_of_write (member : .write w ∈ ofRecord s r) :
    w.key = r.key ∨ ∃ inner, Inside s r inner ∧ w.key = inner.key := by
  obtain ⟨r', met, of⟩ := (tidy_ofRecord s r).sourced w member
  simp only [Inside, ofRecord_eq, tail_cons, mem_cons, Act.meet.injEq] at met ⊢
  rcases met with rfl | inner
  · exact Or.inl of.key
  · exact Or.inr ⟨r', inner, of.key⟩

end Acts

namespace Graph

variable {g g' : Graph} {id : NodeId}

/-- A node that is not met stays so through acts that write no link to it, if it does not link to itself or is not
written to. -/
theorem Performs.unmet (performs : Performs acts g g') (sound : Sound g)
    {key : Key} (owner : g.find? key = some id) (unmet : ¬ g.Met id)
    (avoided : ∀ w, .write w ∈ acts → w.linking = true → ∀ r, .meet r ∈ Acts.ofField g.schema w.field → r.key ≠ key)
    (own : id ∈ g.outgoing id → ∀ w, .write w ∈ acts → w.key ≠ key) : ¬ g'.Met id := by
  induction performs with
  | nil => exact unmet
  | @cons act acts g g₁ g' does _ ih =>
    obtain ⟨sound₁, grows, finds⟩ := (Performs.single does).sound sound
    -- The node is found under one key only, so no link that is written leads to it.
    have one : ∀ key', g.find? key' = some id → key' = key := by
      intro key' found
      obtain ⟨n, live, same⟩ := sound.toArena.of_find? owner
      obtain ⟨n', live', same'⟩ := sound.toArena.of_find? found
      rw [live] at live'
      cases live'
      exact same'.symm.trans same
    have clear : ∀ w incoming, act = .write w → w.image? g.find? = some incoming →
        id ∉ Stored.fieldLinks [incoming] := by
      intro w incoming same image link
      obtain ⟨linking, r, met, -, found⟩ := Write.links_image? g.schema image link
      exact avoided w (same ▸ mem_cons_self) linking r met (one r.key found)
    refine ih sound₁ (finds _ _ owner) (fun met => ?_) (fun w member => ?_) fun self w member => ?_
    · -- One act meets a node only by linking to it, or by dropping its link to itself.
      rcases met_of_does does sound met with before | ⟨w, same, ⟨incoming, image, link⟩ | ⟨found, self⟩⟩
      · exact unmet before
      · exact clear w incoming same image link
      · exact own self w (same ▸ mem_cons_self) (one w.key found)
    · rw [grows.schema]
      exact avoided w (.tail _ member)
    · -- No write makes the node link to itself.
      refine own ?_ w (.tail _ member)
      obtain ⟨n, live, -⟩ := sound.toArena.of_find? owner
      obtain ⟨n₁, live₁, -⟩ := grows.live id n live
      obtain ⟨m, origin, same⟩ := does.origin sound live₁
      rw [outgoing_of_live live₁, Node.links, (same_of_lone same).2.2.1] at self
      cases origin with
      | kept there => rw [outgoing_of_live there]; exact self
      | made _ _ dead => rw [live] at dead; cases dead
      | wrote _ there image =>
        rw [outgoing_of_live there]
        exact (Stored.mem_links_put self).resolve_right (clear _ _ rfl image)

/-- The graph with the nodes that were made queued. -/
def queueNew (g : Graph) : Graph :=
  { g with created := [], orphans := g.created ++ g.orphans }

/-- An absorption that fails has performed a first part of what is read off the record, and sweeps with the nodes that
were made queued. -/
theorem Sound.of_failed_absorb (sound : Sound g) {parentRoot : Option NodeId} {e : GraphError}
    (failed : absorb r parentRoot g = .error e g') :
    ∃ done merged, absorbAt r parentRoot 0 g = .error e merged ∧ done <+: Acts.ofRecord g.schema r ∧
      Performs done g merged ∧ Swept merged.queueNew g' := by
  have traces := absorbAt_traces r parentRoot 0 g sound
  unfold Step.Traces Step.Ends at traces
  unfold absorb at failed
  cases result : absorbAt r parentRoot 0 g with
  | ok id merged =>
    rw [result] at failed
    cases failed
  | error e' merged =>
    rw [result] at traces failed
    cases failed
    obtain ⟨-, done, first, performs⟩ := traces
    exact ⟨done, merged, rfl, first, performs, ((performs.sound sound).1.quiet (.pending merged _ _ _)).sweep⟩

/-- What a failed absorption leaves of a node that was not queued and that nothing links to is not met by the sweep, if
the record neither carries the key of the node nor drops a link of the node to itself. -/
theorem Performs.unmet_of_inside {merged : Graph} (performs : Performs done g merged)
    (sound : Sound g) (first : done <+: Acts.ofRecord g.schema r) {n : Node} (live : g.node? id = some n)
    (alone : ∀ p, p ≠ id → id ∉ g.outgoing p) (fresh : id ∉ g.created) (unqueued : id ∉ g.orphans)
    (own : id ∈ n.links → r.key ≠ n.key) (inside : ∀ inner, Acts.Inside g.schema r inner → inner.key ≠ n.key) :
    ¬ merged.queueNew.Met id := by
  have unmet : ¬ g.Met id := by
    rintro (orphan | ⟨p, other, link⟩)
    · exact unqueued orphan
    · exact alone p other link
  have still : ¬ merged.Met id := by
    refine performs.unmet sound (sound.toArena.find? live) unmet (fun w member linking inner met => ?_)
      fun self w member => ?_
    · exact inside inner (Acts.inside_of_write (first.subset member) linking met)
    · rw [outgoing_of_live live] at self
      rcases Acts.key_of_write (first.subset member) with same | ⟨inner, there, same⟩
      · exact same ▸ own self
      · exact same ▸ inside inner there
  rintro (orphan | linked)
  · rcases mem_append.mp orphan with made | queued
    · -- A node that was made was not live before.
      rcases (performs.created sound).2.2 id made with before | dead
      · exact fresh before
      · rw [live] at dead
        cases dead
    · exact still (Or.inl queued)
  · exact still (Or.inr linked)

/-- A node that nothing else links to is left by an absorption that fails, under its key, exactly when it is not doomed
once the nodes that were made are queued. So it is left if it is held, or if it was not queued and the record neither
carries its key inside nor drops its link to itself. -/
theorem Reachable.failed_absorb_keeps {F : Formulas} {s : Schema} {g g' : Graph}
    (reached : Reachable F s g) {r : Record} {parentRoot : Option NodeId} {e : GraphError}
    (failed : absorb r parentRoot g = .error e g') {id : NodeId} {n : Node} (live : g.node? id = some n)
    (alone : ∀ p, p ≠ id → id ∉ g.outgoing p) :
    ∃ merged, absorbAt r parentRoot 0 g = .error e merged ∧
      (g'.contains id = true ∧ g'.find? n.key = some id ↔ ¬ merged.queueNew.Doomed id) ∧
      (n.holds ≠ 0 ∨ id ∉ g.created ∧ id ∉ g.orphans ∧ (id ∈ n.links → r.key ≠ n.key) ∧
          (∀ inner, Acts.Inside g.schema r inner → inner.key ≠ n.key) →
        g'.contains id = true ∧ g'.find? n.key = some id) := by
  have sound := reached.sound
  obtain ⟨done, merged, at_, first, performs, swept⟩ := sound.of_failed_absorb failed
  obtain ⟨-, grows, -⟩ := performs.sound sound
  obtain ⟨n', live', stays⟩ := grows.live id n live
  have there : merged.queueNew.node? id = some n' := live'
  have exactly_ : g'.contains id = true ∧ g'.find? n.key = some id ↔ ¬ merged.queueNew.Doomed id := by
    refine ⟨fun left => ((swept.contains_iff id).mp left.1).2, fun kept => ⟨?_, ?_⟩⟩
    · exact (swept.contains_iff id).mpr ⟨contains_iff.mpr ⟨n', there⟩, kept⟩
    · rw [← stays.key]
      exact swept.find? kept there
  refine ⟨merged, at_, exactly_, fun safe => exactly_.mpr fun doomed => ?_⟩
  -- A doomed node is not held, and the sweep meets it.
  obtain ⟨found, unheld, met, -⟩ := doomed
  rw [there] at found
  cases found
  rcases safe with held | ⟨fresh, unqueued, own, inside⟩
  · exact held (stays.holds.symm.trans unheld)
  · exact performs.unmet_of_inside sound first live alone fresh unqueued own inside met

/-- Boxes link to a next box, and to anything that is one of the members of an open type. -/
def boxType : TypeDecl :=
  ⟨"Box", none, [⟨"id", .text, 1, true, false, none, []⟩, ⟨"next", .record "Box", 2, false, false, none, []⟩,
    ⟨"extra", .openType "Any", 3, false, false, none, []⟩]⟩

def boxDeclarations : Declarations :=
  ⟨[boxType], [], [⟨"Any", .shared, ["Box"]⟩]⟩

def boxLayout : Layout :=
  boxDeclarations.layout 0 [] boxType []

def boxSchema : Schema :=
  ⟨0, [boxLayout], [], boxDeclarations.opens⟩

theorem compile_box : Schema.compile 0 boxDeclarations = .ok boxSchema := by decide +kernel

def box (id : String) (next extra : Field Value) : Record :=
  ⟨boxLayout, [.value (.text id), next, extra]⟩

/-- An entity of a type that the schema of boxes does not have. -/
def stranger : Value :=
  .record ⟨{ boxLayout with serial := 1, name := "Stranger" }, [.value (.text "x"), .absent, .absent]⟩

/-- The graph of one box that nothing links to. -/
def loneBox : Graph :=
  (absorb (box "k" .absent .absent) none).after (Graph.empty boxSchema defaultRounds)

theorem reachable_loneBox : Reachable noFormulas boxSchema loneBox ∧ loneBox.isGarbage ⟨0, 0⟩ = true :=
  ⟨(Reachable.empty defaultRounds).apply (.absorb _ none), by decide +kernel⟩

/-- A box that carries the box of that graph, and a stranger. -/
def carrier : Record :=
  box "t" (.value (.record (box "k" .absent .absent))) (.value stranger)

theorem absorb_carrier : ∃ g', absorb carrier none loneBox = .error (.unknownType "Stranger") g' ∧
    g'.contains ⟨0, 0⟩ = false := by
  have failure : (absorb carrier none).failure? loneBox = some (.unknownType "Stranger") := by decide +kernel
  exact ⟨_, Step.eq_error_of_failure? failure, by decide +kernel⟩

/-- A box with a stranger in it is not absorbed, and leaves the box that it does not carry. The carrier dooms it. -/
theorem failed_absorb_keeps_box :
    (∃ g', absorb (box "t" .absent (.value stranger)) none loneBox = .error (.unknownType "Stranger") g' ∧
      g'.contains ⟨0, 0⟩ = true) ∧
    ∃ merged, absorbAt carrier none 0 loneBox = .error (.unknownType "Stranger") merged ∧
      merged.queueNew.Doomed ⟨0, 0⟩ := by
  obtain ⟨reached, garbage⟩ := reachable_loneBox
  obtain ⟨n, live, -, alone⟩ := reached.sound.isGarbage_iff.mp garbage
  constructor
  · have failure : (absorb (box "t" .absent (.value stranger)) none).failure? loneBox =
        some (.unknownType "Stranger") := by decide +kernel
    have failed := Step.eq_error_of_failure? failure
    obtain ⟨-, -, -, kept⟩ := Reachable.failed_absorb_keeps reached failed live alone
    -- Neither the box nor the stranger in it has the key of the node.
    have key : n.key = (box "k" .absent .absent).key := by
      have read : (loneBox.node? ⟨0, 0⟩).map Node.key = some (box "k" .absent .absent).key := by decide +kernel
      rw [live] at read
      exact Option.some.inj read
    have clear : ∀ act ∈ (Acts.ofRecord loneBox.schema (box "t" .absent (.value stranger))).tail,
        act.Knows fun inner => inner.key ≠ (box "k" .absent .absent).key := by decide +kernel
    have apart : (box "t" .absent (.value stranger)).key ≠ (box "k" .absent .absent).key := by decide +kernel
    rw [← key] at apart
    simp only [← key] at clear
    exact ⟨_, failed, (kept (Or.inr ⟨by decide +kernel, by decide +kernel, fun _ => apart,
      fun inner inside => clear _ inside⟩)).1⟩
  · obtain ⟨g', failed, dead⟩ := absorb_carrier
    obtain ⟨merged, at_, exactly_, -⟩ := Reachable.failed_absorb_keeps reached failed live alone
    refine ⟨merged, at_, ?_⟩
    by_contra kept
    rw [(exactly_.mpr kept).1] at dead
    cases dead

/-- A failed absorption does not leave every node that nothing else links to. -/
theorem not_failed_absorb_keeps : ¬ ∀ (serial : Nat) (d : Declarations) (s : Schema)
    (F : Formulas) (g g' : Graph) (r : Record) (parentRoot : Option NodeId) (e : GraphError) (id : NodeId),
    Schema.compile serial d = .ok s → Reachable F s g →
    absorb r parentRoot g = .error e g' → g.contains id = true → (∀ p, p ≠ id → id ∉ g.outgoing p) →
    g'.contains id = true := by
  intro keeps
  obtain ⟨reached, garbage⟩ := reachable_loneBox
  obtain ⟨n, live, -, alone⟩ := reached.sound.isGarbage_iff.mp garbage
  obtain ⟨g', failed, dead⟩ := absorb_carrier
  have left := keeps 0 boxDeclarations boxSchema noFormulas loneBox g' carrier none _ ⟨0, 0⟩ compile_box reached failed
    (contains_iff.mpr ⟨n, live⟩) alone
  rw [left] at dead
  cases dead

end Graph

end EntityGraph
