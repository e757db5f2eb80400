import EntityGraph.Proofs.Record.Projection
import EntityGraph.Record.Feed

/-! How the comparisons of records fit together, and that equal records feed a hash alike. What is equal in some
comparison is taken apart once, by an induction on pairs of values; each law is a case of it. -/

namespace EntityGraph

variable {a b : Record} {v w : Value}

theorem optionRel_swap {rel : Value → Value → Prop} {a b : Option Value} (related : Option.Rel rel a b) :
    Option.Rel (fun w v => rel v w) b a := by
  cases related with
  | none => exact .none
  | some here => exact .some here

namespace Field.Meets

variable {mode : Comparison} {rel rel' : Value → Value → Prop} {f g : Field Value}

theorem mono (meets : f.Meets mode rel g) (each : ∀ v w, f = .value v → g = .value w → rel v w → rel' v w) :
    f.Meets mode rel' g := by
  refine Or.imp_right (fun related => ?_) meets
  cases f <;> cases g <;> cases related <;> constructor
  exact each _ _ rfl rfl ‹_›

theorem symm (meets : f.Meets mode rel g) : g.Meets mode (fun w v => rel v w) f :=
  Or.imp (And.imp_right Or.symm) optionRel_swap meets

end Field.Meets

/-- Records of one type whose fields meet, but for those that the comparison skips. -/
structure RecordOf.Meets (mode : Comparison) (rel : Value → Value → Prop) (a b : Record) : Prop where
  layout : a.layout = b.layout
  length : a.fields.length = b.fields.length
  fields : ∀ (i : Nat) (f g : Field Value) (info : FieldInfo), a.fields[i]? = some f → b.fields[i]? = some g →
    a.layout.fields[i]? = some info → mode.skips a.layout info = true ∨ f.Meets mode rel g

section equality

variable {s : Schema} {mode : Comparison}

theorem recordEquals_iff_recordMeets (accepted : s.Accepted) (own : s.ownsRecord a = true)
    (own' : s.ownsRecord b = true) :
    recordEquals mode a b = true ↔ a.Meets mode (fun v w => v.equals mode w = true) b := by
  rw [recordEquals_iff_meets accepted own own']
  refine ⟨fun ⟨layout, fields⟩ => ⟨layout, ?_, fields⟩, fun meets => ⟨meets.layout, meets.fields⟩⟩
  rw [(Schema.ownsRecord_iff.mp own).2.1, (Schema.ownsRecord_iff.mp own').2.1, layout]

/-- What relates all equal values in two records relates the fields of the records, if they are equal. -/
theorem RecordOf.meets_of_equals (accepted : s.Accepted) {rel : Value → Value → Prop}
    (own : s.ownsRecord a = true) (own' : s.ownsRecord b = true) (equal : recordEquals mode a b = true)
    (each : ∀ v w, .value v ∈ a.fields → s.owns v = true → s.owns w = true → v.equals mode w = true → rel v w) :
    a.Meets mode rel b := by
  have meets := (recordEquals_iff_recordMeets accepted own own').mp equal
  refine ⟨meets.layout, meets.length, fun i f g info here there described => ?_⟩
  refine (meets.fields i f g info here there described).imp_right fun both => both.mono fun v w hf hg => ?_
  have member := List.mem_of_getElem? here
  have owned := (Schema.ownsRecord_iff.mp own).2.2 f member
  have owned' := (Schema.ownsRecord_iff.mp own').2.2 g (List.mem_of_getElem? there)
  rw [hf] at member owned
  rw [hg] at owned'
  exact each v w member (by simpa using owned) (by simpa using owned')

/-- What relates scalars that are equal, and equal values as soon as it relates the equal values right inside them,
relates all values of the schema that are equal. -/
theorem Value.equals_induct (accepted : s.Accepted) (rel : Value → Value → Prop)
    (scalar : ∀ v w : Value, v.isScalar = true → v.equals mode w = true → rel v w)
    (record : ∀ a b : Record, s.ownsRecord a = true → s.ownsRecord b = true → a.Meets mode rel b →
      rel (.record a) (.record b))
    (list : ∀ as bs, List.Forall₂ (Option.Rel rel) as bs → rel (.list as) (.list bs))
    (map : ∀ as bs, List.Forall₂ (Entries.Rel rel) as bs → rel (.map as) (.map bs)) (v w : Value)
    (own : s.owns v = true) (own' : s.owns w = true) (equal : v.equals mode w = true) : rel v w := by
  induction v using Value.induct generalizing w with
  | scalar v plain => exact scalar v w plain equal
  | record a ih =>
    cases w <;> try cases equal
    rename_i b
    rw [Schema.owns_record] at own own'
    rw [Value.equals] at equal
    exact record a b own own' (RecordOf.meets_of_equals accepted own own' equal fun v w member => ih v member w)
  | list as ih =>
    cases w <;> try cases equal
    rw [Schema.owns_list] at own own'
    rw [Value.equals, itemsEqual_iff] at equal
    exact list _ _ (items_imp equal fun v w here there => ih v here w (own v here) (own' w there))
  | map as ih =>
    cases w <;> try cases equal
    rw [Schema.owns_map] at own own'
    rw [Value.equals, entriesEqual_iff] at equal
    exact map _ _ (entries_imp equal fun k v w here there => ih k v here w (own k v here) (own' k w there))

/-- Equality is symmetric among values of the schema. -/
theorem Value.equals_symm (accepted : s.Accepted) (own : s.owns v = true) (own' : s.owns w = true)
    (equal : v.equals mode w = true) : w.equals mode v = true := by
  refine Value.equals_induct accepted (fun v w => w.equals mode v = true) ?_ ?_ ?_ ?_ v w own own' equal
  · intro v w plain equal
    cases v <;> cases w <;> simp_all [Value.equals, Value.isScalar]
  · intro a b own own' meets
    rw [Value.equals, recordEquals_iff_recordMeets accepted own' own]
    refine ⟨meets.layout.symm, meets.length.symm, fun i g f info there here described => ?_⟩
    rw [← meets.layout] at described ⊢
    exact (meets.fields i f g info here there described).imp_right Field.Meets.symm
  · intro as bs each
    rw [Value.equals, itemsEqual_iff]
    exact each.flip.imp fun b a => optionRel_swap
  · intro as bs each
    rw [Value.equals, entriesEqual_iff]
    refine each.flip.imp fun b a related => ?_
    rcases related with ⟨key, related⟩
    exact .mk key (optionRel_swap related)

/-- Equality in state is the finest: values that are equal in it are equal in every comparison. -/
theorem Value.equals_of_state (accepted : s.Accepted) (own : s.owns v = true) (own' : s.owns w = true)
    (equal : v.equals .state w = true) : v.equals mode w = true := by
  refine Value.equals_induct accepted (fun v w => v.equals mode w = true) ?_ ?_ ?_ ?_ v w own own' equal
  · intro v w plain equal
    cases v <;> cases w <;> simp_all [Value.equals, Value.isScalar]
  · intro a b own own' meets
    rw [Value.equals, recordEquals_iff_recordMeets accepted own own']
    refine ⟨meets.layout, meets.length, fun i f g info here there described => Or.inr (Or.inr ?_)⟩
    -- Equality in state skips no field, and absent fields count.
    rcases meets.fields i f g info here there described with skipped | ⟨declared, -⟩ | related
    · simp [Comparison.skips] at skipped
    · cases declared
    · exact related
  · intro as bs each
    rwa [Value.equals, itemsEqual_iff]
  · intro as bs each
    rwa [Value.equals, entriesEqual_iff]

end equality

/-! ### What a hash is fed -/

section feed

variable {mode : Comparison}

/-- Values that feed the same, whatever was fed before. -/
def Value.FeedsAlike (mode : Comparison) (v w : Value) : Prop :=
  ∀ out, v.feed mode out = w.feed mode out

theorem feedItems_congr {as bs : List (Option Value)} (each : List.Forall₂ (Option.Rel (Value.FeedsAlike mode)) as bs)
    (out : Feed) : feedItems mode as out = feedItems mode bs out := by
  induction each generalizing out with
  | nil => rfl
  | cons first _ ih =>
    cases first with
    | none => simp only [feedItems, ih]
    | some alike => simp only [feedItems, alike _, ih]

theorem feedEntries_congr {as bs : List (String × Option Value)}
    (each : List.Forall₂ (Entries.Rel (Value.FeedsAlike mode)) as bs) (out : Feed) :
    feedEntries mode as out = feedEntries mode bs out := by
  induction each generalizing out with
  | nil => rfl
  | cons first _ ih =>
    rcases first with ⟨key, related⟩
    cases related with
    | none => simp only [feedEntries, ih]
    | some alike => simp only [feedEntries, alike _, ih]

/-- A field feeds its value behind a mark, or that there is none. -/
theorem feedFields_cons (layout : Layout) (f : Field Value) (fields : List (Field Value)) (info : FieldInfo)
    (infos : List FieldInfo) (out : Feed) : feedFields mode layout (f :: fields) (info :: infos) out =
      feedFields mode layout fields infos (if mode.skips layout info then out else
        (f.value?.map fun v => v.feed mode (.tag 1 :: out)).getD (.tag 0 :: out)) := by
  cases f <;> rfl

theorem feedFields_congr {layout : Layout} {fields fields' : List (Field Value)} {infos : List FieldInfo} {out : Feed}
    (length : fields.length = fields'.length)
    (each : ∀ (i : Nat) (f g : Field Value) (info : FieldInfo), fields[i]? = some f → fields'[i]? = some g →
      infos[i]? = some info → mode.skips layout info = true ∨
        Option.Rel (Value.FeedsAlike mode) f.value? g.value?) :
    feedFields mode layout fields infos out = feedFields mode layout fields' infos out := by
  induction fields generalizing fields' infos out with
  | nil =>
    cases fields' with
    | nil => rfl
    | cons => cases length
  | cons f rest ih =>
    cases fields' with
    | nil => cases length
    | cons g rest' =>
      cases infos with
      | nil => cases f <;> cases g <;> rfl
      | cons info infos =>
        rw [feedFields_cons, feedFields_cons, ih (Nat.succ.inj length) fun i => each (i + 1)]
        rcases each 0 f g info rfl rfl rfl with skipped | related
        · rw [if_pos skipped, if_pos skipped]
        · generalize f.value? = value at related
          generalize g.value? = value' at related
          cases related with
          | none => rfl
          | some alike => simp only [Option.map_some, Option.getD_some, alike _]

theorem feedRecord_congr (meets : a.Meets mode (Value.FeedsAlike mode) b) (out : Feed) :
    feedRecord mode a out = feedRecord mode b out := by
  rcases a with ⟨layout, fields⟩
  rcases b with ⟨layout', fields'⟩
  obtain rfl : layout = layout' := meets.layout
  rw [feedRecord, feedRecord]
  split
  · rfl
  · -- Here absent fields count, so that the fields that meet have alike values.
    rename_i whole
    refine feedFields_congr meets.length fun i f g info here there described => ?_
    refine (meets.fields i f g info here there described).imp_right fun both => ?_
    exact Or.resolve_left both fun declared => whole (by simp [declared.1])

/-- Values of the schema that are equal feed the same. -/
theorem Value.feedsAlike_of_equals {s : Schema} (accepted : s.Accepted) (own : s.owns v = true)
    (own' : s.owns w = true) (equal : v.equals mode w = true) : v.FeedsAlike mode w := by
  refine Value.equals_induct accepted (Value.FeedsAlike mode) ?_ ?_ ?_ ?_ v w own own' equal
  · intro v w plain equal out
    cases v <;> cases w <;> simp_all [Value.equals, Value.isScalar, Value.feed]
  · intro a b _ _ meets out
    rw [Value.feed, Value.feed, feedRecord_congr meets]
  · intro as bs each out
    rw [Value.feed, Value.feed, each.length_eq, feedItems_congr each]
  · intro as bs each out
    rw [Value.feed, Value.feed, each.length_eq, feedEntries_congr each]

end feed

/-- The records that belong to a schema, with all records in them. -/
abbrev Schema.Owned (s : Schema) : Type :=
  { r : Record // s.ownsRecord r = true }

/-- Among the records of a compiled schema, equality in identity and in state are equivalences, equality in what both
declare is reflexive and symmetric, equality in state implies the other two, and records that are equal in some
comparison feed the same to a hash for it. -/
theorem RecordOf.equals_coherent {serial : Nat} {d : Declarations} {s : Schema}
    (compiled : Schema.compile serial d = .ok s) :
    (Equivalence fun a b : s.Owned => a.1.equals .identity b.1 = true) ∧
      (Equivalence fun a b : s.Owned => a.1.equals .state b.1 = true) ∧
      (∀ a : s.Owned, a.1.equals .declared a.1 = true) ∧
      (∀ a b : s.Owned, a.1.equals .declared b.1 = true → b.1.equals .declared a.1 = true) ∧
      (∀ a b : s.Owned, a.1.equals .state b.1 = true →
        a.1.equals .identity b.1 = true ∧ a.1.equals .declared b.1 = true) ∧
      ∀ (mode : Comparison) (a b : s.Owned), a.1.equals mode b.1 = true → a.1.feed mode = b.1.feed mode := by
  have accepted : s.Accepted := fun _ _ type => Schema.accepted_of_type? compiled type
  have owns (a : s.Owned) : s.owns (.record a.1) = true := by
    rw [Schema.owns_record]
    exact a.2
  -- Records are compared as values are.
  have values (mode : Comparison) (a b : Record) : (Value.record a).equals mode (.record b) = a.equals mode b := by
    rw [Value.equals, equals]
  have refl (mode : Comparison) (a : s.Owned) : a.1.equals mode a.1 = true := recordEquals_refl accepted a.1 a.2
  have symm (mode : Comparison) (a b : s.Owned) (equal : a.1.equals mode b.1 = true) :
      b.1.equals mode a.1 = true := by
    rw [← values] at equal ⊢
    exact Value.equals_symm accepted (owns a) (owns b) equal
  have equivalence (mode : Comparison) (whole : mode ≠ .declared) :
      Equivalence fun a b : s.Owned => a.1.equals mode b.1 = true :=
    ⟨refl mode, fun {a b} => symm mode a b, fun {a b c} => recordEquals_trans accepted whole a.2 b.2 c.2⟩
  have finest (mode : Comparison) (a b : s.Owned) (equal : a.1.equals .state b.1 = true) :
      a.1.equals mode b.1 = true := by
    rw [← values] at equal ⊢
    exact Value.equals_of_state accepted (owns a) (owns b) equal
  have fed (mode : Comparison) (a b : s.Owned) (equal : a.1.equals mode b.1 = true) :
      a.1.feed mode = b.1.feed mode := by
    refine feedRecord_congr (meets_of_equals accepted a.2 b.2 equal fun v w _ => ?_) []
    exact Value.feedsAlike_of_equals accepted
  exact ⟨equivalence .identity (by decide), equivalence .state (by decide), refl .declared, symm .declared,
    fun a b equal => ⟨finest .identity a b equal, finest .declared a b equal⟩, fed⟩

/-- Seats that are equal in identity feed the same to a hash for it, whatever their members display. -/
theorem RecordOf.equals_coherent_seats : (Seats.seat "Ada" 3).equals .identity (Seats.seat "A. L." 7) = true ∧
    (Seats.seat "Ada" 3).feed .identity = (Seats.seat "A. L." 7).feed .identity :=
  have equal : (Seats.seat "Ada" 3).equals .identity (Seats.seat "A. L." 7) = true := by decide +kernel
  have fed := (equals_coherent Seats.compile_seats).2.2.2.2.2
  ⟨equal, fed .identity ⟨Seats.seat "Ada" 3, by decide +kernel⟩ ⟨Seats.seat "A. L." 7, by decide +kernel⟩ equal⟩

end EntityGraph
