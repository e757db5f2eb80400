import EntityGraph.Proofs.Json.Members
import EntityGraph.Proofs.Wire.Steady

/-! Readers of an accepted schema find every type that they ask for, in whatever bytes or document they read. -/

namespace EntityGraph

open List

namespace DocumentReader

variable {F : Formulas} {schema : Schema} {site : Site} {kind : Kind} {depth : Nat} {e : JsonError}
  {members : List (String × Json)}

theorem items_ne_error {js : List Json} (each : ∀ j ∈ js, value F schema j site kind depth ≠ .error e) :
    items F schema js site kind depth ≠ .error e := by
  induction js with
  | nil => simp [items]
  | cons j rest ih =>
    have ⟨first, others⟩ := forall_mem_cons.mp each
    rw [items]
    exact Except.bind_ne_error first fun v => Except.bind_ne_error (ih others) fun vs failed => by cases failed

theorem entries_ne_error (before : List (String × Option Value))
    (each : ∀ k j, (k, j) ∈ members → value F schema j site kind depth ≠ .error e) :
    entries F schema members site kind depth before ≠ .error e := by
  induction members generalizing before with
  | nil => simp [entries]
  | cons m rest ih =>
    rcases m with ⟨k, j⟩
    rw [entries]
    exact Except.bind_ne_error (each k j mem_cons_self) fun v =>
      ih _ fun k j later => each k j (.tail _ later)

theorem fields_ne_error {draft : Draft} (each : ∀ k j, (k, j) ∈ members → ∀ info ∈ draft.layout.fields, ∀ site, value
      F schema j site info.kind depth ≠ .error e) : fields F schema members depth draft ≠ .error e := by
  induction members generalizing draft with
  | nil => simp [fields]
  | cons m rest ih =>
    rcases m with ⟨k, j⟩
    have others : ∀ k j, (k, j) ∈ rest → ∀ info ∈ draft.layout.fields, ∀ site,
        value F schema j site info.kind depth ≠ .error e :=
      fun k j later => each k j (.tail _ later)
    cases position : draft.layout.indexOf? k with
    | none =>
      rw [fields_unknown position]
      exact ih others
    | some i =>
      obtain ⟨info, found, -⟩ := Layout.of_indexOf? position
      rw [fields_known position found]
      exact Except.bind_ne_error (each k j mem_cons_self info (mem_of_getElem? found) _) fun v => ih others

variable {serial : Nat} {d : Declarations} (compiled : Schema.compile serial d = .ok schema) (name : String)
include compiled

/-- The members of a record of the schema are read without missing a type if what they hold is. -/
theorem draft_ne_unknownType {α : Type} {type : String} {layout : Layout} (found : schema.type? type = some layout)
    (each : ∀ k j, (k, j) ∈ members → ∀ {site} {kind : Kind}, kind.Resolves schema → value F schema j site kind
      depth ≠ .error (.unknownType name)) (finish : Draft → α) : (do
    let empty ← start layout depth
    let draft ← fields F schema members depth empty
    return finish draft) ≠ .error (.unknownType name) := by
  unfold start
  split
  · intro failed
    cases failed
  · -- The fields of a layout of the schema have kinds that resolve.
    have read : fields F schema members depth (Draft.new layout) ≠ .error (.unknownType name) :=
      fields_ne_error fun k j member info inside site =>
        each k j member (Schema.resolves_of_type? compiled found info inside)
    exact Except.bind_ne_error (f := fun draft => pure (finish draft)) read fun draft failed => by cases failed

/-- A kind that resolves is read from any document without missing a type. -/
theorem value_ne_unknownType (j : Json) (known : kind.Resolves schema) :
    value F schema j site kind depth ≠ .error (.unknownType name) := by
  induction j using Json.induct generalizing site kind depth with
  | scalar j plain =>
    cases j with
    | null => simp [value]
    | bool b => cases kind <;> simp [value, Site.invalid]
    | number n =>
      cases kind with
      | int => cases whole : n.int64? <;> simp [value, number, Site.invalid, Except.map, whole]
      | _ => simp [value, number, Site.invalid, Except.map]
    | string s => cases kind <;> simp [value, string, Site.invalid, Except.map]
    | _ => cases plain
  | array js ih =>
    cases kind with
    | list element =>
      rw [value]
      split
      · simp [Site.invalid]
      · exact Except.bind_ne_error (items_ne_error fun j member => ih j member known) fun vs failed => by cases failed
    | _ => simp [value, Site.invalid]
  | object members ih =>
    cases kind with
    | record other =>
      obtain ⟨layout, found⟩ := known
      simp only [value, found]
      exact draft_ne_unknownType compiled name found (fun k j member => ih k j member) _
    | openType other =>
      rw [value]
      split
      · split
        · simp
        · rename_i layout member
          exact draft_ne_unknownType compiled name (Schema.type?_of_member? member) (fun k j member => ih k j member) _
      · simp
    | map element =>
      rw [value]
      split
      · simp [Site.invalid]
      · exact Except.bind_ne_error (entries_ne_error [] fun k j member => ih k j member known) fun es failed => by
          cases failed
    | _ => simp [value, Site.invalid]

end DocumentReader

/-- An accepted schema is closed under reference: neither bytes nor documents make a reader of one of its types miss a
type, at any depth, and the paths of every rule lead from field to field. -/
theorem Schema.references_closed {serial : Nat} {d : Declarations} {s : Schema}
    (compiled : Schema.compile serial d = .ok s) (F : Formulas) {type : String} {l : Layout}
    (found : s.type? type = some l) :
    (∀ bytes name, Wire.decode F s type bytes ≠ .error (.unknownType name)) ∧
      (∀ (j : Json) name, j.toRecord F s type ≠ .error (.unknownType name)) ∧
        ∀ rule ∈ l.rules, rule.condition.Resolves s l := by
  refine ⟨fun bytes name failed => ?_, fun j name => ?_, fun rule member => resolves_of_rule compiled found member⟩
  · have steady := Wire.Reader.topRecord_steady compiled F found
    unfold Wire.decode Wire.decodeAs Wire.Reader.run at failed
    rw [found] at failed
    simp only at failed
    split at failed
    · cases failed
    · rename_i result
      cases failed
      exact steady.misses _ _ _ result
  · unfold Json.toRecord
    rw [found]
    cases j with
    | object members =>
      exact DocumentReader.draft_ne_unknownType compiled name found
        (fun _ j _ => DocumentReader.value_ne_unknownType compiled name j) _
    | _ => simp

namespace Teams

def personType : TypeDecl :=
  ⟨"Person", none, [⟨"name", .text, 1, true, false, none, []⟩]⟩

/-- A team has a lead, members and parts, which may be teams or people. Its summary follows the names of them all. -/
def teamType : TypeDecl where
  name := "Team"
  action := none
  fields := [⟨"lead", .record "Person", 1, false, false, none, []⟩,
    ⟨"members", .list (.record "Person"), 2, false, false, none, []⟩,
    ⟨"parts", .map (.list (.openType "Part")), 3, false, false, none, []⟩,
    ⟨"summary", .text, 4, false, false, some (.contextual "summary"),
      [⟨none, .changed ["lead", "name"]⟩, ⟨some "Team", .elementChanged ["members"] ["name"]⟩]⟩]

def declarations : Declarations :=
  ⟨[personType, teamType], [], [⟨"Part", .variety, ["Team", "Person"]⟩]⟩

def teamLayout : Layout :=
  declarations.layout 0 [("Team", ⟨.changed ["lead", "name"], .own "Team" "summary"⟩),
    ("Team", ⟨.elementChanged ["members"] ["name"], .broadcast "Team" "summary"⟩)] teamType []

def schema : Schema :=
  ⟨0, [declarations.layout 0 [] personType [], teamLayout], [], declarations.opens⟩

theorem compile_teams : Schema.compile 0 declarations = .ok schema := by decide +kernel

end Teams

/-- Nothing makes a reader of teams miss a type, and a change of a member's name is looked for in the type of the
members. -/
theorem Schema.references_closed_team : Schema.compile 0 Teams.declarations = .ok Teams.schema ∧
    (∀ bytes name, Wire.decode ⟨fun _ _ => .absent, fun _ _ => .absent⟩ Teams.schema "Team" bytes ≠
      .error (.unknownType name)) ∧
    (∀ (j : Json) name, j.toRecord ⟨fun _ _ => .absent, fun _ _ => .absent⟩ Teams.schema "Team" ≠
      .error (.unknownType name)) ∧
    (Condition.elementChanged ["members"] ["name"]).Resolves Teams.schema Teams.teamLayout := by
  have found : Teams.schema.type? "Team" = some Teams.teamLayout := by decide +kernel
  obtain ⟨bytes, documents, rules⟩ :=
    references_closed Teams.compile_teams ⟨fun _ _ => .absent, fun _ _ => .absent⟩ found
  exact ⟨Teams.compile_teams, bytes, documents,
    rules ⟨.elementChanged ["members"] ["name"], .broadcast "Team" "summary"⟩ (by decide +kernel)⟩

end EntityGraph
