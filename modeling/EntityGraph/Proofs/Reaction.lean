import EntityGraph.Proofs.Record.State
import EntityGraph.Reaction

/-! Which rules fire between two snapshots of equal state. Settling passes over such a step, and what watches for a
change of a path fires on it exactly where the path is null now and was never fetched before. -/

namespace EntityGraph

variable {path : Path} {s : Schema}

namespace RecordOf

variable {r : Record}

/-- A declared field stands at a position that has its name. -/
theorem exists_position {name : String} (declared : (r.field name).isDeclared = true) :
    ∃ (i : Nat) (info : FieldInfo), r.layout.fields[i]? = some info ∧ info.name = name ∧
      r.fields[i]? = some (r.field name) := by
  unfold RecordOf.field at declared ⊢
  cases position : r.layout.indexOf? name with
  | none =>
    -- A name that the layout does not know is absent.
    rw [position] at declared
    cases declared
  | some i =>
    rw [position] at declared
    obtain ⟨info, described, same⟩ := Layout.of_indexOf? position
    cases here : r.fields[i]? with
    | none =>
      -- So is a position without a field.
      simp [here, Field.isDeclared, Field.isAbsent] at declared
    | some f => exact ⟨i, info, described, same, by simp only [here, Option.getD_some]⟩

section equal

variable {was is : Record} {name : String} {v : Value}

/-- What the first of two records of equal state declares is equal in state to what the second has under that name. -/
theorem field_equals (equal : was.equals .state is = true) (declared : (was.field name).isDeclared = true) :
    (was.field name).equals .state (is.field name) = true := by
  obtain ⟨i, info, described, rfl, here⟩ := exists_position declared
  rcases was with ⟨layout, fields⟩
  rw [RecordOf.equals, recordEquals, Bool.and_eq_true, fieldsEqual_iff (by decide)] at equal
  -- Equality in state skips no field.
  exact (equal.2 i _ info here described).resolve_left (by simp [Comparison.skips])

/-- A record in the first one meets a record of equal state in the second one, if there is a record at all. -/
theorem record_equals (equal : was.equals .state is = true) {w i : Record}
    (before : was.field name = .value (.record w)) (now : is.field name = .value (.record i)) :
    w.equals .state i = true := by
  have declared : (was.field name).isDeclared = true := by rw [before]; rfl
  have alike := field_equals equal declared
  rw [before, now] at alike
  simpa only [Field.equals, Field.value?, Value.equals, RecordOf.equals] using alike

/-- Where both records declare a path, they are equal in state at its end. -/
theorem at?_equals (equal : was.equals .state is = true) {before now : Field Value} (there : was.at? path = some before)
    (here : is.at? path = some now) : before.equals .state now = true := by
  induction path generalizing was is with
  | nil => cases there
  | cons step rest ih =>
    cases rest with
    | nil =>
      -- The last step reads a field of either record, and it has to be declared in both.
      simp only [RecordOf.at?, Option.ite_none_right_eq_some, Option.some.injEq] at there here
      obtain ⟨declared, rfl⟩ := there
      obtain ⟨-, rfl⟩ := here
      exact field_equals equal declared
    | cons next rest =>
      -- Any other step leads into records, which are equal in state as well.
      unfold RecordOf.at? at there here
      split at there
      · rename_i w inner
        split at here
        · rename_i i inner'
          exact ih (record_equals equal inner inner') there here
        · cases here
      · cases there

/-- Between records of the schema's own types a value in the second one meets a value in the first one. -/
theorem exists_value (accepted : s.Accepted) (own : s.ownsRecord was = true) (own' : s.ownsRecord is = true)
    (equal : was.equals .state is = true) (now : is.field name = .value v) : ∃ w, was.field name = .value w := by
  have declared : (is.field name).isDeclared = true := by rw [now]; rfl
  obtain ⟨i, info, described, rfl, there⟩ := exists_position declared
  -- Both have one layout, so that the first record has a field at the same position.
  obtain ⟨layouts, each⟩ := (recordEquals_state_iff accepted own own').mp equal
  obtain ⟨type, length, -⟩ := Schema.ownsRecord_iff.mp own
  have inside : i < was.fields.length := by
    rw [length, layouts]
    exact (List.getElem?_eq_some_iff.mp described).1
  have alike := each i _ _ (List.getElem?_eq_getElem inside) there
  rw [← layouts] at described
  rw [field_name (accepted _ _ type) described, List.getElem?_eq_getElem inside, Option.getD_some]
  rw [now] at alike
  cases held : was.fields[i] with
  | value w => exact ⟨w, rfl⟩
  | null => rw [held] at alike; cases alike
  | absent => rw [held] at alike; cases alike

/-- So a value that a path reaches in the second one is at a path that the first one declares. -/
theorem isSome_at?_of_value (accepted : s.Accepted) (own : s.ownsRecord was = true) (own' : s.ownsRecord is = true)
    (equal : was.equals .state is = true) (here : is.at? path = some (.value v)) : (was.at? path).isSome = true := by
  induction path generalizing was is with
  | nil => cases here
  | cons step rest ih =>
    cases rest with
    | nil =>
      simp only [RecordOf.at?, Option.ite_none_right_eq_some, Option.some.injEq] at here
      obtain ⟨w, held⟩ := exists_value accepted own own' equal here.2
      simp [RecordOf.at?, held, Field.isDeclared, Field.isAbsent]
    | cons next rest =>
      unfold RecordOf.at? at here ⊢
      split at here
      · rename_i i inner
        obtain ⟨w, held⟩ := exists_value accepted own own' equal inner
        have declared : (was.field step).isDeclared = true := by rw [held]; rfl
        have alike := field_equals equal declared
        rw [held, inner] at alike
        have nested := Schema.ownsField_field own step
        have nested' := Schema.ownsField_field own' step
        rw [held] at nested
        rw [inner] at nested'
        -- Only a record is equal to a record.
        cases w with
        | record w =>
          rw [Schema.ownsField_value, Schema.owns_record] at nested nested'
          rw [held]
          exact ih nested nested' (record_equals equal held inner) here
        | _ => cases alike
      · cases here

/-- What a path reaches is declared. -/
theorem isDeclared_of_at? {f : Field Value} (here : r.at? path = some f) : f.isDeclared = true := by
  induction path generalizing r with
  | nil => cases here
  | cons step rest ih =>
    cases rest with
    | nil =>
      simp only [RecordOf.at?, Option.ite_none_right_eq_some, Option.some.injEq] at here
      obtain ⟨declared, rfl⟩ := here
      exact declared
    | cons next rest =>
      unfold RecordOf.at? at here
      split at here
      · exact ih here
      · cases here

end equal

end RecordOf

namespace Reaction

/-- The path is declared now and was not before. -/
def appears (was is : Record) (path : Path) : Bool :=
  (is.at? path).isSome && (was.at? path).isNone

/-- The condition holds of a step that leaves the state as it is: a path changed if it appears, and did not change if it
was declared already. -/
def firesAlike (was is : Record) (diff : Diff) : Condition → Bool
  | .changed path => appears was is path
  | .unchanged path => (is.at? path).isSome && (was.at? path).isSome
  | .elementChanged collection path => elementChanged (some was) is collection path diff

variable {was is : Record}

theorem pathChanged_eq_appears (equal : was.equals .state is = true) (path : Path) :
    pathChanged (some was) is path = appears was is path := by
  unfold pathChanged appears
  cases here : is.at? path with
  | none => rfl
  | some now =>
    cases there : was.at? path with
    | none => simp [there]
    | some before => simp [there, RecordOf.at?_equals equal there here]

theorem fires_eq_firesAlike (equal : was.equals .state is = true) (diff : Diff) (condition : Condition) :
    fires (some was) is diff condition = firesAlike was is diff condition := by
  cases condition with
  | changed path => exact pathChanged_eq_appears equal path
  | unchanged path =>
    rw [fires, firesAlike, pathChanged_eq_appears equal, appears]
    cases is.at? path <;> cases was.at? path <;> rfl
  | elementChanged collection path => rfl

/-- In a record of the schema's own types a path appears with null, if the state stays the same. -/
theorem at?_of_appears (accepted : s.Accepted) (own : s.ownsRecord was = true) (own' : s.ownsRecord is = true)
    (equal : was.equals .state is = true) (appeared : appears was is path = true) : is.at? path = some .null := by
  obtain ⟨now, missing⟩ := Bool.and_eq_true_iff.mp appeared
  obtain ⟨f, here⟩ := Option.isSome_iff_exists.mp now
  have declared := RecordOf.isDeclared_of_at? here
  cases f with
  | null => exact here
  | absent => cases declared
  | value v =>
    -- A value would have been declared before.
    have before := RecordOf.isSome_at?_of_value accepted own own' equal here
    rw [Option.isNone_iff_eq_none.mp missing] at before
    cases before

end Reaction

/-- The rules that fire between snapshots of equal state, which settling passes over. What watches for a change of a
path fires exactly if it is declared now and was not before. Between own records it is null then. -/
theorem reactions_eq_of_equals {was is : Record} (equal : was.equals .state is = true) (diff : Diff) :
    reactions (some was) is diff =
        (is.layout.rules.filter fun rule => Reaction.firesAlike was is diff rule.condition).map Rule.reaction ∧
      ∀ {serial : Nat} {d : Declarations} {schema : Schema},
        Schema.compile serial d = .ok schema → schema.ownsRecord was = true →
        schema.ownsRecord is = true → ∀ path, Reaction.appears was is path = true → is.at? path = some .null := by
  refine ⟨?_, fun compiled own own' path => Reaction.at?_of_appears ?_ own own' equal⟩
  · simp only [reactions, Reaction.fires_eq_firesAlike equal]
  · exact fun name l found => Schema.accepted_of_type? compiled found

/-- The declaration of banners. What is shown follows the text. -/
def bannerType : TypeDecl :=
  ⟨"Banner", none, [⟨"id", .text, 1, true, false, none, []⟩, ⟨"text", .text, 2, false, false, none, []⟩,
    ⟨"shown", .int, 3, false, false, some (.contextual "bump"), [⟨none, .changed ["text"]⟩]⟩]⟩

def bannerDeclarations : Declarations :=
  ⟨[bannerType], [], []⟩

def bannerLayout : Layout :=
  bannerDeclarations.layout 0 [("Banner", ⟨.changed ["text"], .own "Banner" "shown"⟩)] bannerType []

/-- The banner of one key. -/
def banner (text : Field Value) : Record :=
  ⟨bannerLayout, [.value (.text "a"), text, .absent]⟩

theorem compile_banner : Schema.compile 0 bannerDeclarations = .ok ⟨0, [bannerLayout], [], []⟩ := by decide +kernel

/-- A banner whose text is fetched and found to be null has the state it had. The rule that watches the text fires. -/
theorem reactions_eq_banner : reactions (some (banner .absent)) (banner .null) .empty = [.own "Banner" "shown"] ∧
    (banner .null).at? ["text"] = some .null := by
  have equal : (banner .absent).equals .state (banner .null) = true := by decide +kernel
  obtain ⟨fired, null⟩ := reactions_eq_of_equals equal .empty
  refine ⟨fired.trans (by decide +kernel), null compile_banner ?_ ?_ ["text"] ?_⟩ <;> decide +kernel

/-- Settling passes over steps on which a rule that watches for a change fires. -/
theorem not_reactions_of_equals : ¬ ∀ (serial : Nat) (d : Declarations) (schema : Schema)
    (was is : Record) (diff : Diff), Schema.compile serial d = .ok schema →
    schema.ownsRecord was = true → schema.ownsRecord is = true → was.layout = is.layout →
    was.equals .state is = true → ∀ rule ∈ is.layout.rules, ∀ path, rule.condition = .changed path →
      Reaction.fires (some was) is diff rule.condition = false := by
  intro quiet
  have silent := quiet 0 bannerDeclarations _ (banner .absent) (banner .null) .empty compile_banner (by decide +kernel)
    (by decide +kernel) rfl (by decide +kernel) ⟨.changed ["text"], .own "Banner" "shown"⟩ List.mem_cons_self _ rfl
  have fired : Reaction.fires (some (banner .absent)) (banner .null) .empty (.changed ["text"]) = true := by
    decide +kernel
  rw [fired] at silent
  cases silent

end EntityGraph
