import EntityGraph.Proofs.Except
import EntityGraph.Schema.Compile
import Mathlib.Data.List.Chain
import Mathlib.Data.List.Nodup
import Mathlib.Data.List.Perm.Subperm
import Mathlib.Data.List.Range
import Mathlib.Logic.Relation

/-! The order of pure derivations has each of them once, after those it reads. A search gives up exactly if derivations
read each other in a cycle, and then it reports one. -/

namespace EntityGraph.DeriveOrder

open List

open Relation

variable {fields : List FieldDecl}

/-- The order so far has the finished pure derivations, each after those it reads. -/
structure Sorted (fields : List FieldDecl) (progress : Progress) : Prop where
  members : ∀ i, i ∈ progress.order ↔ i ∈ progress.done ∧ isPure fields i = true
  once : progress.order.Nodup
  after : ∀ before i later, progress.order = before ++ i :: later →
    ∀ j ∈ reads fields i, isPure fields j = true → j ∈ before

/-- What a search that visited some positions has achieved, with others on its path. -/
structure Visited (fields : List FieldDecl) (path : List Nat) (earlier later : Progress) (positions : List Nat) :
    Prop where
  sorted : Sorted fields later
  done : ∀ i ∈ positions, i ∈ later.done
  kept : ∀ i ∈ earlier.done, i ∈ later.done
  off : ∀ i ∈ later.done, i ∈ earlier.done ∨ i ∉ path

theorem lt_of_mem_reads {i j : Nat} (read : j ∈ reads fields i) : j < fields.length := by
  unfold reads at read
  split at read
  · cases read
  · split at read
    · -- A position was found by its name.
      obtain ⟨name, -, found⟩ := mem_filterMap.mp (mem_of_mem_filter read)
      exact (findIdx?_eq_some_iff_findIdx_eq.mp found).1
    · cases read

/-- Visits one after the other achieve what each of them achieves. -/
theorem foldlM_visited {visit : Progress → Nat → Except (List Nat) Progress} {path positions : List Nat}
    (step : ∀ earlier i later, i ∈ positions → Sorted fields earlier → visit earlier i = .ok later →
      Visited fields path earlier later [i])
    {earlier later : Progress} (sorted : Sorted fields earlier)
    (ran : positions.foldlM visit earlier = .ok later) : Visited fields path earlier later positions := by
  induction positions generalizing earlier with
  | nil =>
    cases ran
    exact ⟨sorted, by simp, fun _ done => done, fun _ done => Or.inl done⟩
  | cons i rest ih =>
    rw [foldlM_cons] at ran
    obtain ⟨middle, first, ran⟩ := Except.bind_eq_ok.mp ran
    have head := step earlier i middle mem_cons_self sorted first
    have tail := ih (fun earlier j later member => step earlier j later (.tail _ member)) head.sorted ran
    -- What the first visit finished stays finished.
    refine ⟨tail.sorted, fun j member => ?_, fun j done => tail.kept j (head.kept j done), fun j done => ?_⟩
    · rcases mem_cons.mp member with rfl | later
      · exact tail.kept j (head.done j mem_cons_self)
      · exact tail.done j later
    · exact (tail.off j done).elim (head.off j) Or.inr

/-- A position can be finished once all that it reads is. -/
theorem Sorted.finish {progress : Progress} (sorted : Sorted fields progress) {i : Nat}
    (ready : ∀ j ∈ reads fields i, j ∈ progress.done) (fresh : i ∉ progress.done) :
    Sorted fields ⟨i :: progress.done, if isPure fields i then progress.order ++ [i] else progress.order⟩ := by
  constructor
  · intro j
    by_cases same : j = i
    · subst same
      by_cases pure : isPure fields j <;> simp [pure, sorted.members]
    · by_cases pure : isPure fields i <;> simp [pure, same, sorted.members]
  · have new : i ∉ progress.order := fun member => fresh ((sorted.members i).mp member).1
    split
    · rw [← concat_eq_append]
      exact List.Nodup.concat new sorted.once
    · exact sorted.once
  · intro before j later split k read pure
    -- A derivation that was in the order before has the same ones in front of it.
    by_cases isLast : isPure fields i = true
    · simp only [isLast, if_true] at split
      rcases eq_nil_or_concat later with rfl | ⟨front, last, rfl⟩
      · -- The last one is the one that was just added, and all that it reads is finished.
        obtain ⟨rfl, same⟩ := append_inj' split rfl
        cases same
        exact (sorted.members k).mpr ⟨ready k read, pure⟩
      · rw [concat_eq_append, ← cons_append, ← append_assoc] at split
        obtain ⟨order, -⟩ := append_inj' split rfl
        exact sorted.after before j front order k read pure
    · simp only [isLast] at split
      exact sorted.after before j later split k read pure

/-- A visit that succeeds finishes its position. The fuel outlasts every path, since no position is on it twice. -/
theorem visit_visited {fuel : Nat} {path : List Nat} {earlier later : Progress} {i : Nat}
    (fuelled : fields.length < fuel + path.length) (distinct : path.Nodup) (inside : ∀ j ∈ path, j < fields.length)
    (here : i < fields.length) (sorted : Sorted fields earlier) (ran : visit fields fuel path earlier i = .ok later) :
    Visited fields path earlier later [i] := by
  induction fuel generalizing path earlier later i with
  | zero =>
    -- Without fuel the path would have more positions than there are fields.
    have subset : path ⊆ List.range fields.length := fun j member => mem_range.mpr (inside j member)
    have short := (distinct.subperm subset).length_le
    rw [length_range] at short
    omega
  | succ fuel ih =>
    unfold visit at ran
    split at ran
    · -- The position is finished already.
      rename_i done
      cases ran
      refine ⟨sorted, fun j member => ?_, fun _ done => done, fun _ done => Or.inl done⟩
      rw [mem_singleton.mp member]
      simpa using done
    · rename_i new
      split at ran
      · cases ran
      · rename_i fresh
        rw [contains_iff_mem] at new fresh
        obtain ⟨middle, inner, ran⟩ := Except.bind_eq_ok.mp ran
        cases ran
        -- All that the position reads is visited first, with the position on the path.
        have visited : Visited fields (i :: path) earlier middle (reads fields i) := by
          refine foldlM_visited (fun earlier j later read sorted ran => ?_) sorted inner
          refine ih ?_ ?_ ?_ (lt_of_mem_reads read) sorted ran
          · rw [length_cons]
            omega
          · exact nodup_cons.mpr ⟨fresh, distinct⟩
          · intro k member
            rcases mem_cons.mp member with rfl | later
            · exact here
            · exact inside k later
        -- The position was on the path all the time, so that none of these visits finished it.
        have unfinished : i ∉ middle.done := fun done =>
          (visited.off i done).elim new fun off => off mem_cons_self
        refine ⟨visited.sorted.finish visited.done unfinished, fun j member => ?_, fun j done => ?_, fun j done => ?_⟩
        · rw [mem_singleton.mp member]
          exact mem_cons_self
        · exact mem_cons_of_mem _ (visited.kept j done)
        · rcases mem_cons.mp done with rfl | earlier
          · exact Or.inr fresh
          · exact (visited.off j earlier).imp_right fun off member => off (.tail _ member)

/-- The order that a search gives has exactly the pure derivations, each once and after those it reads. -/
theorem run_ok {order : List Nat} (ran : run fields = .ok order) :
    order.Nodup ∧ (∀ i, i ∈ order ↔ isPure fields i = true) ∧
      ∀ before i later, order = before ++ i :: later → ∀ j ∈ reads fields i, isPure fields j = true → j ∈ before := by
  unfold run at ran
  obtain ⟨progress, search, ran⟩ := Except.bind_eq_ok.mp ran
  cases ran
  have visited : Visited fields [] ⟨[], []⟩ progress (List.range fields.length) := by
    refine foldlM_visited (fun earlier i later member sorted ran => ?_) ⟨by simp, nodup_nil, by simp⟩ search
    exact visit_visited (by simp) nodup_nil (by simp) (mem_range.mp member) sorted ran
  refine ⟨visited.sorted.once, fun i => ?_, visited.sorted.after⟩
  rw [visited.sorted.members]
  -- Every position was visited, so being pure is all that is asked.
  refine ⟨And.right, fun pure => ⟨visited.done i (mem_range.mpr ?_), pure⟩⟩
  unfold isPure at pure
  by_contra outside
  rw [getElem?_eq_none (by omega)] at pure
  cases pure

/-- The pure derivation at one position reads the field at another. -/
def Reads (fields : List FieldDecl) (i j : Nat) : Prop :=
  i ≠ j ∧ ∃ f, fields[i]? = some f ∧ f.isPure = true ∧
    ∃ name ∈ f.inputs, fields.findIdx? (fun g => g.name == name) = some j

/-- Each of the positions reads the next one, and the last reads the first. -/
def IsCycle (fields : List FieldDecl) (cycle : List Nat) : Prop :=
  ∃ first ∈ cycle.head?, List.IsChain (Reads fields) (cycle ++ [first])

theorem mem_reads_iff {i j : Nat} : j ∈ reads fields i ↔ Reads fields i j := by
  unfold reads Reads
  cases fields[i]? with
  | none => simp
  | some f =>
    cases pure : f.isPure with
    | false => simp [pure]
    | true => simp [pure, and_comm, ne_comm]

theorem Reads.isPure {i j : Nat} (read : Reads fields i j) : isPure fields i = true := by
  obtain ⟨-, f, found, pure, -⟩ := read
  rw [DeriveOrder.isPure, found]
  exact pure

/-- Every position of a cycle reads another one. -/
theorem IsCycle.reads {cycle : List Nat} (closed : IsCycle fields cycle) : ∀ i ∈ cycle, ∃ j, Reads fields i j := by
  obtain ⟨first, -, chain⟩ := closed
  induction cycle with
  | nil => simp
  | cons i rest ih =>
    obtain ⟨next, later⟩ := isChain_cons.mp chain
    intro j member
    rcases mem_cons.mp member with rfl | member
    · -- Behind the last position stands the first one again.
      cases rest with
      | nil => exact ⟨first, next first rfl⟩
      | cons k => exact ⟨k, next k rfl⟩
    · exact ih later j member

/-- A cycle has more than one position, and its first one reads itself over the others. -/
theorem IsCycle.transGen {cycle : List Nat} (closed : IsCycle fields cycle) :
    1 < cycle.length ∧ ∃ i, TransGen (Reads fields) i i := by
  obtain ⟨first, head, chain⟩ := closed
  obtain ⟨rest, rfl⟩ := head?_eq_some_iff.mp head
  constructor
  · cases rest with
    | nil => exact absurd rfl (isChain_cons_cons.mp chain).1.1
    | cons => simp
  · have related := (chain.imp fun _ _ read => TransGen.single read).pairwise
    exact ⟨first, rel_of_pairwise_cons related (by simp)⟩

/-- A search stops at one of the positions that it visits. -/
theorem exists_of_foldlM_error {visit : Progress → Nat → Except (List Nat) Progress} {positions cycle : List Nat}
    {progress : Progress} (ran : positions.foldlM visit progress = .error cycle) :
    ∃ i ∈ positions, ∃ earlier, visit earlier i = .error cycle := by
  induction positions generalizing progress with
  | nil => cases ran
  | cons i rest ih =>
    rw [foldlM_cons] at ran
    cases first : visit progress i with
    | error other =>
      rw [first] at ran
      cases ran
      exact ⟨i, mem_cons_self, progress, first⟩
    | ok middle =>
      rw [first] at ran
      obtain ⟨j, member, stopped⟩ := ih ran
      exact ⟨j, mem_cons_of_mem _ member, stopped⟩

/-- A visit that fails reports a cycle. Each position of the path was reached from the one behind it, which reads it. -/
theorem visit_error {fuel i : Nat} {path cycle : List Nat} {progress : Progress}
    (chain : List.IsChain (fun j k => Reads fields k j) (i :: path))
    (ran : visit fields fuel path progress i = .error cycle) : IsCycle fields cycle := by
  induction fuel generalizing path progress i with
  | zero => cases ran
  | succ fuel ih =>
    unfold visit at ran
    split at ran
    · cases ran
    split at ran
    · -- The way back along the path to the same position is a cycle, turned around.
      rename_i again
      cases ran
      rw [contains_iff_mem] at again
      obtain ⟨earlier, rest, rfl, new⟩ := eq_append_cons_of_mem again
      have back : (earlier ++ i :: rest).takeWhile (· != i) = earlier := by
        rw [takeWhile_append_of_pos fun j member => by simpa using ne_of_mem_of_not_mem member new]
        simp
      rw [back]
      refine ⟨i, by simp, ?_⟩
      rw [show i :: (earlier ++ i :: rest) = (i :: earlier ++ [i]) ++ rest by simp] at chain
      simpa using isChain_reverse.mpr chain.left_of_append
    · cases inner : (reads fields i).foldlM (visit fields fuel (i :: path)) progress with
      | ok middle => rw [inner] at ran; cases ran
      | error other =>
        rw [inner] at ran
        cases ran
        obtain ⟨j, read, earlier, stopped⟩ := exists_of_foldlM_error inner
        exact ih (isChain_cons_cons.mpr ⟨mem_reads_iff.mp read, chain⟩) stopped

/-- A search that fails reports a cycle. -/
theorem run_error {cycle : List Nat} (ran : run fields = .error cycle) : IsCycle fields cycle := by
  unfold run at ran
  cases search : (List.range fields.length).foldlM (visit fields (fields.length + 1) []) ⟨[], []⟩ with
  | ok progress => rw [search] at ran; cases ran
  | error other =>
    rw [search] at ran
    cases ran
    obtain ⟨i, -, earlier, stopped⟩ := exists_of_foldlM_error search
    exact visit_error (by simp) stopped

/-- In an order where each derivation comes after those it reads, it comes after those that these read. -/
theorem mem_of_transGen {order : List Nat} (after : ∀ before i later, order = before ++ i :: later →
      ∀ j ∈ reads fields i, isPure fields j = true → j ∈ before) {i j : Nat} (read : TransGen (Reads fields) i j)
    (pure : isPure fields j = true) {before later : List Nat} (split : order = before ++ i :: later) : j ∈ before := by
  induction read using TransGen.head_induction_on generalizing before later with
  | single read => exact after before _ later split j (mem_reads_iff.mpr read) pure
  | head read further ih =>
    -- Whatever reads further is pure, and stands before.
    obtain ⟨next, reads, -⟩ := TransGen.head'_iff.mp further
    have member := after before _ later split _ (mem_reads_iff.mpr read) reads.isPure
    obtain ⟨front, back, rfl, -⟩ := eq_append_cons_of_mem member
    rw [append_assoc, cons_append] at split
    exact mem_append_left _ (ih split)

end EntityGraph.DeriveOrder
