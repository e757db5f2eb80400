import EntityGraph.Proofs.Record.Unknowns
import EntityGraph.Proofs.Wire.Receive

/-! A reader with the writer's own schema gets the record that was written. -/

namespace EntityGraph

open List

variable {f : FieldInfo} {F : Formulas} {s : Schema} {read' : String → Field Value} {l : Layout}
  {read : String → Field Value}

mutual

/-- The value with the bodies of unknown records left out: two values are equal so far exactly when they are equal in
all but these bodies. -/
def Value.bare : Value → Value
  | .record r => .record (recordBare r)
  | .unknown u => .unknown ⟨u.name, .empty⟩
  | .list items => .list (itemsBare items)
  | .map entries => .map (entriesBare entries)
  | v => v

/-- The elements without the bodies of unknown records. -/
def itemsBare : List (Option Value) → List (Option Value)
  | some v :: rest => some v.bare :: itemsBare rest
  | none :: rest => none :: itemsBare rest
  | [] => []

/-- The entries without the bodies of unknown records. -/
def entriesBare : List (String × Option Value) → List (String × Option Value)
  | (k, some v) :: rest => (k, some v.bare) :: entriesBare rest
  | (k, none) :: rest => (k, none) :: entriesBare rest
  | [] => []

/-- The record without the bodies of unknown records. -/
def recordBare : RecordOf Value → RecordOf Value
  | ⟨layout, fields⟩ => ⟨layout, fieldsBare fields⟩

/-- The fields without the bodies of unknown records. -/
def fieldsBare : List (Field Value) → List (Field Value)
  | .value v :: rest => .value v.bare :: fieldsBare rest
  | .null :: rest => .null :: fieldsBare rest
  | .absent :: rest => .absent :: fieldsBare rest
  | [] => []

end

/-- The field without the bodies of unknown records. -/
def Field.bare : Field Value → Field Value
  | .value v => .value v.bare
  | .null => .null
  | .absent => .absent

/-- An unknown record without its body. -/
def Unknown.bare (u : Unknown) : Unknown :=
  ⟨u.name, .empty⟩

/-- Leaving out the bodies is one way to change unknown records. -/
theorem Value.bare_eq_mapUnknown (v : Value) : v.bare = v.mapUnknown Unknown.bare := by
  induction v using Value.induct with
  | scalar v plain => cases v <;> first | rfl | cases plain
  | record r ih =>
    rcases r with ⟨layout, fields⟩
    induction fields with
    | nil => rfl
    | cons f rest later =>
      cases f <;> simp_all [Value.bare, recordBare, fieldsBare, Value.mapUnknown, recordMapUnknown, fieldsMapUnknown]
  | list items ih =>
    induction items with
    | nil => rfl
    | cons item rest later => cases item <;> simp_all [Value.bare, itemsBare, Value.mapUnknown, itemsMapUnknown]
  | map entries ih =>
    induction entries with
    | nil => rfl
    | cons e rest later =>
      have others := later fun k v member => ih k v (.tail _ member)
      rcases e with ⟨k, _ | v⟩
      · simp_all [Value.bare, entriesBare, Value.mapUnknown, entriesMapUnknown]
      · simp_all [Value.bare, entriesBare, Value.mapUnknown, entriesMapUnknown, ih k v mem_cons_self]

theorem recordBare_eq_mapUnknown (r : Record) : recordBare r = recordMapUnknown Unknown.bare r := by
  simpa [Value.bare, Value.mapUnknown] using Value.bare_eq_mapUnknown (.record r)

theorem Field.bare_eq_mapUnknown (f : Field Value) : f.bare = f.mapUnknown Unknown.bare := by
  cases f <;> simp only [Field.bare, Field.mapUnknown, Value.bare_eq_mapUnknown]

theorem fieldsBare_eq_map (fields : List (Field Value)) : fieldsBare fields = fields.map Field.bare := by
  induction fields with
  | nil => rfl
  | cons f rest ih => cases f <;> simp [fieldsBare, Field.bare, ih]

theorem Field.bare_eq_of_rel {f g : Field Value} (related : Field.Rel (fun v w => w.bare = v.bare) f g) :
    g.bare = f.bare := by
  cases related with
  | absent => rfl
  | null => rfl
  | value same => simp only [Field.bare, same]

/-- Records that are the same in all but the bodies of unknown records are equal to others alike. -/
theorem RecordOf.equals_of_bare {r r' : Record} (same : recordBare r' = recordBare r) (mode : Comparison) :
    r'.equals mode r = r.equals mode r := by
  -- A comparison looks at names, which are kept without the bodies.
  have named : ∀ u : Unknown, u.bare.name = u.name := fun _ => rfl
  unfold RecordOf.equals
  rw [← recordEquals_mapUnknown named mode r' r, ← recordEquals_mapUnknown named mode r r,
    ← recordBare_eq_mapUnknown r', ← recordBare_eq_mapUnknown r, same]

/-- The formulas of a schema read their declared inputs alone. -/
structure Formulas.ReadsInputs (F : Formulas) (s : Schema) : Prop where
  inputs : ∀ l ∈ s.types, ∀ f ∈ l.fields, ∀ inputs formula, f.derivation = some (.computed inputs formula) →
    ∀ read read' : String → Field Value, (∀ name ∈ inputs, read name = read' name) →
      F.pure formula read = F.pure formula read'

/-- What is left off the wire can be computed from what is on it. -/
structure Formulas.OffWire (F : Formulas) (s : Schema) : Prop extends F.ReadsInputs s where
  /-- A formula of a field off the wire tells unknown records apart by their names, as every comparison of values does.
  What else is known of them is not kept on the wire. -/
  namesOffWire : ∀ l ∈ s.types, ∀ f ∈ l.fields, f.onWire = false →
    ∀ inputs formula, f.derivation = some (.computed inputs formula) →
    ∀ read read' : String → Field Value, (∀ name, (read name).bare = (read' name).bare) →
      (F.pure formula read).bare = (F.pure formula read').bare

/-- All formulas of a schema read their inputs alone, and tell unknown records apart by their names. -/
structure Formulas.Local (F : Formulas) (s : Schema) : Prop extends F.ReadsInputs s where
  names : ∀ l ∈ s.types, ∀ f ∈ l.fields, ∀ inputs formula, f.derivation = some (.computed inputs formula) →
    ∀ read read' : String → Field Value, (∀ name, (read name).bare = (read' name).bare) →
      (F.pure formula read).bare = (F.pure formula read').bare

theorem Formulas.Local.offWire (formulasLocal : F.Local s) : F.OffWire s :=
  ⟨formulasLocal.toReadsInputs, fun l known f member _ => formulasLocal.names l known f member⟩

/-- A formula computes the same, up to the bodies of unknown records, from inputs that are the same so far. -/
theorem Formulas.OffWire.bare_eq (offWire : F.OffWire s) (known : l ∈ s.types)
    (member : f ∈ l.fields) (left : f.onWire = false) {inputs : List String} {formula : String}
    (derives : f.derivation = some (.computed inputs formula))
    (same : ∀ name ∈ inputs, (read name).bare = (read' name).bare) :
    (F.pure formula read).bare = (F.pure formula read').bare := by
  -- In between there are readings that differ from the one in bodies only, and from the other in no input.
  let between : String → Field Value := fun name => if name ∈ inputs then read' name else read name
  have bodies : (F.pure formula read).bare = (F.pure formula between).bare := by
    refine offWire.namesOffWire l known f member left inputs formula derives read between fun name => ?_
    by_cases input : name ∈ inputs
    · simp only [between, if_pos input]
      exact same name input
    · simp only [between, if_neg input]
  have others : F.pure formula between = F.pure formula read' := by
    refine offWire.inputs l known f member inputs formula derives between read' fun name input => ?_
    simp only [between, if_pos input]
  rw [bodies, others]

/-- The fields that are left off the wire are what their derivations compute from the record, as far as can be told. -/
def RecordOf.HasDerived (same : Field Value → Field Value → Prop) (F : Formulas) (r : Record) : Prop :=
  ∀ (i : Nat) (f : FieldInfo) (d : Derivation) (g : Field Value), r.layout.fields[i]? = some f → f.onWire = false →
    f.derivation = some d → d.evaluate? F r.field = some g → ∃ h, r.fields[i]? = some h ∧ same h g

/-- They are so in all but the bodies of unknown records. -/
def RecordOf.Derived : Formulas → Record → Prop :=
  RecordOf.HasDerived fun h g => h.bare = g.bare

theorem FieldDecl.of_offWire {f : FieldDecl} (offWire : f.onWire = false) : f.isPure = true ∧ f.name ∉ f.inputs := by
  simp only [onWire, Bool.or_eq_false_iff, Bool.not_eq_false', readsItself] at offWire
  exact ⟨offWire.1.1, by simpa using offWire.2⟩

namespace Derivation

theorem firstAvailable_bare (sources : List (Field Value)) :
    firstAvailable (sources.map Field.bare) = (firstAvailable sources).bare := by
  have bare : Field.bare = Field.mapUnknown Unknown.bare := funext Field.bare_eq_mapUnknown
  rw [bare, firstAvailable_mapUnknown]

/-- A derivation computes the same from records whose inputs for it are the same. -/
theorem evaluate?_bare (offWire : F.OffWire s) (known : l ∈ s.types)
    (member : f ∈ l.fields) (left : f.onWire = false) {d : Derivation} (derives : f.derivation = some d)
    (same : ∀ name ∈ d.inputs, (read name).bare = (read' name).bare) :
    (d.evaluate? F read).map Field.bare = (d.evaluate? F read').map Field.bare := by
  cases d with
  | firstOf sources =>
    -- The sources are all the inputs that there are.
    have inputs : (sources.map read).map Field.bare = (sources.map read').map Field.bare := by
      rw [map_map, map_map]
      exact map_congr_left same
    simp only [evaluate?, Option.map_some, ← firstAvailable_bare, inputs]
  | computed inputs formula =>
    simp only [evaluate?, Option.map_some, offWire.bare_eq known member left derives same]
  | contextual formula => rfl

end Derivation

namespace RecordOf

variable {related : Nat → Field Value → Field Value → Prop} {sent : List (Field Value)}

/-- Two records agree at a position: they have fields there that are related, or no field. -/
def AgreesAt (related : Nat → Field Value → Field Value → Prop) (r r' : Record) (i : Nat) : Prop :=
  Option.Rel (related i) r.fields[i]? r'.fields[i]?

/-- A derivation off the wire that is run in another record, where all that it reads agrees, computes what agrees. -/
def Rederives (F : Formulas) (related : Nat → Field Value → Field Value → Prop) (r : Record) : Prop :=
  ∀ (r' : Record) (i : Nat) (f : FieldInfo), r'.layout = r.layout → r.layout.fields[i]? = some f → f.onWire = false →
    i < r'.fields.length → (∀ name ∈ f.inputs, ∀ k, r.layout.indexOf? name = some k → AgreesAt related r r' k) →
      AgreesAt related r (r'.deriveAt F i) i

/-- Records that agree at the position of a name agree in the field of that name. -/
theorem bare_field {r r' : Record} (layout : r'.layout = r.layout) {name : String}
    (agrees : ∀ i, r.layout.indexOf? name = some i → AgreesAt (fun _ f f' => f'.bare = f.bare) r r' i) :
    (r'.field name).bare = (r.field name).bare := by
  unfold field
  rw [layout]
  cases found : r.layout.indexOf? name with
  | none => rfl
  | some i =>
    have there := agrees i found
    unfold AgreesAt at there
    dsimp only
    generalize r.fields[i]? = here, r'.fields[i]? = other at there ⊢
    -- A field that is not there is absent, in both records.
    cases there with
    | none => rfl
    | some same => exact same

variable {r r' : Record}

/-- A record that has what its derivations compute from it has it computed again, up to the bodies of unknown
records. -/
theorem Derived.rederives (derived : r.Derived F) (formulasOffWire : F.OffWire s)
    (known : r.layout ∈ s.types) : r.Rederives F fun _ f f' => f'.bare = f.bare := by
  intro r' i f layout found offWire inside inputs
  have pure := (FieldDecl.of_offWire offWire).1
  cases derives : f.derivation with
  | none => simp [FieldDecl.isPure, derives] at pure
  | some d =>
    rw [FieldDecl.isPure, derives] at pure
    rw [FieldDecl.inputs, derives] at inputs
    obtain ⟨g, computed⟩ := Derivation.exists_evaluate? pure F r.field
    obtain ⟨g', computed'⟩ := Derivation.exists_evaluate? pure F r'.field
    -- The record has what the derivation computes from it, and the other record computes the same.
    have same := Derivation.evaluate?_bare formulasOffWire known (mem_of_getElem? found) offWire derives
      fun name input => bare_field layout (inputs name input)
    rw [computed, computed', Option.map_some, Option.map_some, Option.some_inj] at same
    obtain ⟨h, here, bare⟩ := derived i f d g found offWire derives computed
    unfold AgreesAt
    rw [getElem?_deriveAt (layout ▸ found) derives pure inside, here, computed']
    exact .some (same.trans bare.symm)

/-- A record on its way to agree with another one: it does so on the wire, and at the positions already derived. -/
structure Agrees (related : Nat → Field Value → Field Value → Prop) (r : Record) (done : List Nat) (r' : Record) :
    Prop where
  layout : r'.layout = r.layout
  length : r'.fields.length = r.layout.fields.length
  fields : ∀ i, i ∈ r.layout.wireOrder ∨ i ∈ done → AgreesAt related r r' i

section Derive

variable (rederives : r.Rederives F related) (accepted : r.layout.Accepted) {done later : List Nat}
include rederives accepted

/-- The next derivation off the wire finds all that it reads in agreement. -/
theorem Agrees.deriveAt (agrees : Agrees related r done r') {i : Nat}
    (order : r.layout.deriveOrder = done ++ i :: later) (found : r.layout.fields[i]? = some f)
    (offWire : f.onWire = false) : Agrees related r (done ++ [i]) (r'.deriveAt F i) := by
  have differs := differs_deriveAt F r' i
  refine ⟨differs.layout.trans agrees.layout, differs.length.trans agrees.length, fun j place => ?_⟩
  by_cases same : j = i
  · subst same
    have inside : j < r'.fields.length := by
      rw [agrees.length]
      exact (List.getElem?_eq_some_iff.mp found).1
    refine rederives r' j f agrees.layout found offWire inside fun name read k named => agrees.fields k ?_
    -- An input is on the wire, or it is derived itself and comes earlier.
    obtain ⟨g, found', same⟩ := Layout.of_indexOf? named
    by_cases onWire : g.onWire = true
    · exact Or.inl ((accepted.wire k).mpr ⟨g, found', onWire⟩)
    · have pure := (FieldDecl.of_offWire (by simpa using onWire)).1
      refine Or.inr (accepted.after done j later order f found name read k named ?_ g found' pure)
      -- It is not the position itself, since a derivation that reads itself is on the wire.
      rintro rfl
      rw [found] at found'
      cases found'
      exact (FieldDecl.of_offWire offWire).2 (same ▸ read)
  · -- The other positions are as they were.
    unfold AgreesAt
    rw [differs.fields j (by simpa using same)]
    refine agrees.fields j (place.imp_right fun member => ?_)
    simpa [same] using member

/-- Running the derivations that are off the wire, each after those it reads, makes all fields agree. -/
theorem Agrees.foldl_deriveAt (agrees : Agrees related r done r') (order : r.layout.deriveOrder = done ++ later) :
    Agrees related r r.layout.deriveOrder
      ((later.filter fun i => !(r.layout.fields[i]?.any fun f => f.onWire)).foldl (RecordOf.deriveAt F) r') := by
  induction later generalizing done r' with
  | nil =>
    rw [append_nil] at order
    rwa [order]
  | cons i later ih =>
    have rest : r.layout.deriveOrder = (done ++ [i]) ++ later := by simpa using order
    obtain ⟨f, found, -⟩ := (accepted.derived i).mp (by simp [order])
    cases onWire : f.onWire with
    | true =>
      -- A derivation on the wire is not run, and agrees because it was sent.
      have sent : i ∈ r.layout.wireOrder := (accepted.wire i).mpr ⟨f, found, onWire⟩
      have next : Agrees related r (done ++ [i]) r' := by
        refine ⟨agrees.layout, agrees.length, fun j place => agrees.fields j ?_⟩
        rw [mem_append, mem_singleton] at place
        rcases place with wire | before | rfl
        · exact Or.inl wire
        · exact Or.inr before
        · exact Or.inl sent
      rw [filter_cons_of_neg (by simp [found, onWire])]
      exact ih next rest
    | false =>
      -- One off the wire is run, and agrees from then on.
      have next := agrees.deriveAt rederives accepted order found onWire
      rw [filter_cons_of_pos (by simp [found, onWire])]
      exact ih next rest

end Derive

/-- Records agree everywhere once all that is derived agrees. -/
theorem Agrees.all {r : SizedRecord} (agrees : Agrees related r r.layout.deriveOrder r')
    (accepted : r.layout.Accepted) (i : Nat) : AgreesAt related r r' i := by
  cases found : r.layout.fields[i]? with
  | none =>
    -- Neither record has a field there.
    have outside := List.getElem?_eq_none_iff.mp found
    unfold AgreesAt
    rw [getElem?_eq_none (by rw [r.sized]; exact outside), getElem?_eq_none (by rw [agrees.length]; exact outside)]
    exact .none
  | some f =>
    -- A field is on the wire, or it is pure and was derived.
    apply agrees.fields
    by_cases onWire : f.onWire = true
    · exact Or.inl ((accepted.wire i).mpr ⟨f, found, onWire⟩)
    · exact Or.inr ((accepted.derived i).mpr ⟨f, found, (FieldDecl.of_offWire (by simpa using onWire)).1⟩)

/-- A record that is received is on its way to agree with one whose fields on the wire agree with what is sent. -/
theorem agrees_putAll {r : SizedRecord} (accepted : r.layout.Accepted)
    (agree : List.Forall₂ (fun i => related i (r.fields[i]?.getD .absent)) r.layout.wireOrder sent) :
    Agrees related r [] ((Draft.new r.layout).putAll (r.layout.wireOrder.zip sent)).raw := by
  refine ⟨Draft.layout_putAll _ _, ?_, fun i place => ?_⟩
  · rw [Draft.raw, Draft.length_putAll]
    simp [Draft.new]
  · have member : i ∈ r.layout.wireOrder := by simpa using place
    obtain ⟨k, position⟩ := getElem?_of_mem member
    obtain ⟨f, found, -⟩ := (accepted.wire i).mp member
    have inside := r.lt_length found
    have inside' : k < sent.length := by
      rw [← agree.length_eq]
      exact (List.getElem?_eq_some_iff.mp position).1
    -- The field that was sent in this place is related to the record's own.
    obtain ⟨j, here, same⟩ := exists_of_forall₂ agree (getElem?_eq_getElem inside')
    rw [position] at here
    cases here
    unfold AgreesAt
    rw [Draft.raw, accepted.getElem?_putAll position, getElem?_eq_getElem inside']
    rw [getElem?_eq_getElem inside] at same ⊢
    exact .some same

/-- A record that is received agrees everywhere with one that rederives what is off the wire, if what is sent agrees
with it. -/
theorem Rederives.receive {r : SizedRecord} (rederives : r.Rederives F related) (accepted : r.layout.Accepted)
    (agree : List.Forall₂ (fun i => related i (r.fields[i]?.getD .absent)) r.layout.wireOrder sent) (i : Nat) :
    AgreesAt related r (r.layout.receive F sent) i := by
  have start := agrees_putAll accepted agree
  -- The derivations that are off the wire complete the record.
  have agrees := start.foldl_deriveAt rederives accepted rfl
  have received : r.layout.receive F sent = (r.layout.deriveOrder.filter fun i =>
      !(r.layout.fields[i]?.any fun f => f.onWire)).foldl (RecordOf.deriveAt F)
        ((Draft.new r.layout).putAll (r.layout.wireOrder.zip sent)).raw := by
    unfold Layout.receive Draft.buildRead RecordOf.deriveOffWire
    rw [start.layout]
  rw [← received] at agrees
  exact agrees.all accepted i

/-- Records that agree at every position are the same in all but the bodies of unknown records. -/
theorem recordBare_eq (layout : r'.layout = r.layout)
    (agree : ∀ i, AgreesAt (fun _ f f' => f'.bare = f.bare) r r' i) : recordBare r' = recordBare r := by
  have fields : fieldsBare r'.fields = fieldsBare r.fields := by
    rw [fieldsBare_eq_map, fieldsBare_eq_map]
    apply ext_getElem?
    intro i
    have here := agree i
    unfold AgreesAt at here
    rw [getElem?_map, getElem?_map]
    generalize r.fields[i]? = f, r'.fields[i]? = f' at here ⊢
    cases here with
    | none => rfl
    | some same => exact congrArg some same
  rcases r with ⟨here, values⟩
  rcases r' with ⟨there, values'⟩
  have same : there = here := layout
  simp only [recordBare, same, fields]

end RecordOf

theorem itemsBare_eq {items items' : List (Option Value)}
    (related : List.Forall₂ (Option.Rel fun v w => w.bare = v.bare) items items') :
    itemsBare items' = itemsBare items := by
  induction related with
  | nil => rfl
  | cons first _ ih =>
    cases first with
    | none => simp only [itemsBare, ih]
    | some same => simp only [itemsBare, ih, same]

theorem entriesBare_eq {entries entries' : List (String × Option Value)}
    (related : List.Forall₂ (Entries.Rel fun v w => w.bare = v.bare) entries entries') :
    entriesBare entries' = entriesBare entries := by
  induction related with
  | nil => rfl
  | cons first _ ih =>
    rcases first with ⟨k, same⟩
    cases same with
    | none => simp only [entriesBare, ih]
    | some same => simp only [entriesBare, ih, same]

/-- Being the same in all but the bodies of unknown records is respected by a channel from a schema to itself. -/
theorem Wire.respects_bare (channel : Channel s s) (formulasOffWire : F.OffWire s) :
    Respects F s s (RecordOf.Derived F) fun v w => w.bare = v.bare where
  bool _ := rfl
  int _ := rfl
  double _ := rfl
  text _ := rfl
  enum _ := rfl
  unknown _ _ := rfl
  list related := by simp only [Value.bare, itemsBare_eq related]
  map related := by simp only [Value.bare, entriesBare_eq related]
  record := by
    intro r there sent writes derived reads related
    have accepted := channel.writes writes
    rw [writes] at reads
    cases reads
    have rederives := derived.rederives formulasOffWire (mem_of_find?_eq_some writes)
    have agree := (forall₂_map_left_iff.mp related).imp fun _ _ => Field.bare_eq_of_rel
    -- What is sent agrees, so the derivations that are off the wire compute what agrees.
    have same := RecordOf.recordBare_eq Layout.layout_receive (rederives.receive accepted agree)
    simp only [Value.bare, same]
  forgotten member none _ := by
    rw [none] at member
    cases member

/-- A record that was written and read with one schema is the same in all but the bodies of unknown records. -/
theorem Wire.decode_encode {serial : Nat} {d : Declarations} {s : Schema} {F : Formulas}
    (compiled : Schema.compile serial d = .ok s) (formulasOffWire : F.OffWire s)
    {t t' : Record} {bytes : List UInt8} (known : recordKnown s (RecordOf.Derived F) t)
    (written : encode t = .ok bytes) (read : decode F s t.layout.name bytes = .ok t') :
    recordBare t' = recordBare t := by
  have channel := Channel.of_compile compiled compiled (.refl s)
  have same := decode_transfers channel (respects_bare channel formulasOffWire) known written read
  simpa [Value.bare] using same

namespace Wire

/-- Events show something of their title and parts, which is computed and stays off the wire. The parts are of an open
type. -/
def eventType : TypeDecl :=
  ⟨"Event", none, [⟨"title", .text, 1, true, false, none, []⟩,
    ⟨"shown", .text, 2, false, false, some (.computed ["title", "parts"] "shown"), []⟩,
    ⟨"parts", .list (.openType "Part"), 3, false, false, none, []⟩, ⟨"weight", .double, 4, false, false, none, []⟩]⟩

def eventDeclarations : Declarations :=
  ⟨[eventType], [], [⟨"Part", .variety, ["Event"]⟩]⟩

def eventLayout : Layout :=
  eventDeclarations.layout 0 [] eventType [1]

def eventSchema : Schema :=
  ⟨0, [eventLayout], [], eventDeclarations.opens⟩

theorem compile_event : Schema.compile 0 eventDeclarations = .ok eventSchema := by decide +kernel

/-- The formula that shows a title as it is. -/
def titleFormulas : Formulas :=
  ⟨fun _ read => read "title", fun _ _ => .absent⟩

/-- A formula of events that reads no more than titles and parts reads its inputs. -/
theorem readsInputs_event (alone : ∀ formula (read other : String → Field Value), read "title" = other "title" →
    read "parts" = other "parts" → F.pure formula read = F.pure formula other) :
    F.ReadsInputs eventSchema where
  inputs l known f member inputs formula derives read read' same := by
    have declared : ∀ l ∈ eventSchema.types, ∀ f ∈ l.fields,
        f.derivation = none ∨ f.derivation = some (.computed ["title", "parts"] "shown") := by decide +kernel
    rcases declared l known f member with none | some
    · rw [none] at derives
      cases derives
    · rw [some] at derives
      cases derives
      exact alone _ _ _ (same "title" mem_cons_self) (same "parts" (.tail _ mem_cons_self))

/-- The formula reads the title, which is one of its inputs. -/
theorem local_titleFormulas : titleFormulas.Local eventSchema where
  toReadsInputs := readsInputs_event fun _ _ _ title _ => title
  names _ _ _ _ _ _ _ _ _ same := same "title"

/-- An event that shows its title. -/
def event (title parts weight : Field Value) : Record :=
  ⟨eventLayout, [title, title, parts, weight]⟩

/-- What is shown is all that is derived in an event. -/
theorem hasDerived_event {same : Field Value → Field Value → Prop} {fields : List (Field Value)} {shown : Field Value}
    (there : fields[1]? = some shown) (computed : same shown (F.pure "shown" (RecordOf.field ⟨eventLayout, fields⟩))) :
    RecordOf.HasDerived same F ⟨eventLayout, fields⟩ := by
  intro i f d g found offWire derives computes
  have only : ∀ i < 4, ∀ f ∈ eventLayout.fields[i]?, f.onWire = false → i = 1 := by decide +kernel
  cases only i (List.getElem?_eq_some_iff.mp found).1 f found offWire
  cases found
  cases derives
  cases computes
  exact ⟨shown, there, computed⟩

/-- A meeting with a part, a part of an unknown type and a missing part. -/
def meeting : Record :=
  event (.value (.text "day"))
    (.value (.list [some (.record (event .null .absent .absent)), some (.unknown ⟨"Pause", .json "1"⟩), none]))
    (.value (.double ⟨0x8000000000000000⟩))

theorem known_meeting : recordKnown eventSchema (RecordOf.Derived titleFormulas) meeting := by
  have part : (eventSchema.member? "Part" "Event").isSome = true := by decide +kernel
  have pause : eventSchema.member? "Part" "Pause" = none := by decide +kernel
  have type : eventSchema.type? "Event" = some eventLayout := by decide +kernel
  have inner : recordKnown eventSchema (RecordOf.Derived titleFormulas) (event .null .absent .absent) :=
    ⟨type, rfl, hasDerived_event rfl rfl, trivial⟩
  exact ⟨type, rfl, hasDerived_event rfl rfl, fun _ => trivial, fun _ => trivial,
    fun _ => ⟨⟨part, inner⟩, pause, trivial⟩, fun _ => trivial, trivial⟩

/-- The bytes of the meeting. -/
def meetingBytes : List UInt8 :=
  [3, 1, 255, 3, 100, 97, 121, 3, 3, 5, 69, 118, 101, 110, 116, 3, 3, 1, 1, 5, 80, 97, 117, 115, 101, 1, 0, 0, 0, 0, 0,
    0, 0, 0, 128]

/-- The meeting is written and read back. -/
theorem decode_encode_meeting : ∃ t', encode meeting = .ok meetingBytes ∧
    decode titleFormulas eventSchema "Event" meetingBytes = .ok t' ∧ recordBare t' = recordBare meeting := by
  have written : encode meeting = .ok meetingBytes := by decide +kernel
  obtain ⟨t', read⟩ := Except.exists_of_isOk (x := decode titleFormulas eventSchema "Event" meetingBytes)
    (by decide +kernel)
  exact ⟨t', written, read, decode_encode compile_event local_titleFormulas.offWire known_meeting written read⟩

/-- The formula that shows whether the only part is of an unknown type and came as text. -/
def bodyFormulas : Formulas :=
  ⟨fun _ read => match read "parts" with
    | .value (.list [some (.unknown ⟨_, .json _⟩)]) => .value (.text "text")
    | _ => .value (.text "other"), fun _ _ => .absent⟩

/-- The formula that shows the title if there are parts, and else nothing. -/
def partsFormulas : Formulas :=
  ⟨fun _ read => if (read "parts").value?.isSome then read "title" else .null, fun _ _ => .absent⟩

theorem readsInputs_bodyFormulas : bodyFormulas.ReadsInputs eventSchema :=
  readsInputs_event fun _ read other _ parts => by simp only [bodyFormulas, parts]

theorem local_partsFormulas : partsFormulas.Local eventSchema where
  toReadsInputs := readsInputs_event fun _ read other title parts => by simp only [partsFormulas, title, parts]
  names _ _ _ _ _ _ _ read other same := by
    have there : (read "parts").value?.isSome = (other "parts").value?.isSome := by
      have bare := same "parts"
      generalize read "parts" = g, other "parts" = g' at bare ⊢
      cases g <;> cases g' <;> first | rfl | cases bare
    simp only [partsFormulas, there]
    split
    · exact same "title"
    · rfl

/-- Known records come back, given what is asked of formulas and of the fields that are left off the wire. -/
def RoundTrips (asked : Formulas → Schema → Prop) (derived : Formulas → Record → Prop) : Prop :=
  ∀ (serial : Nat) (d : Declarations) (s : Schema) (F : Formulas) (t t' : Record)
    (bytes : List UInt8), Schema.compile serial d = .ok s → asked F s →
    recordKnown s (derived F) t → encode t = .ok bytes →
    decode F s t.layout.name bytes = .ok t' → recordBare t' = recordBare t

/-- A record that comes back looks the same. -/
theorem not_roundTrips {asked : Formulas → Schema → Prop} {derived : Formulas → Record → Prop} {t : Record}
    {bytes : List UInt8} (reads : asked F eventSchema) (known : recordKnown eventSchema (derived F) t)
    (written : encode t = .ok bytes) (look : Field Value → Bool)
    (differs : (decode F eventSchema t.layout.name bytes).toOption.map
      (fun back => look ((recordBare back).field "shown")) = some (!look ((recordBare t).field "shown"))) :
    ¬ RoundTrips asked derived := by
  intro claim
  cases read : decode F eventSchema t.layout.name bytes with
  | error e =>
    rw [read] at differs
    cases differs
  | ok back =>
    rw [read] at differs
    have same := claim 0 eventDeclarations eventSchema F t back bytes compile_event reads known written read
    have looks : look ((recordBare back).field "shown") = !look ((recordBare t).field "shown") :=
      Option.some.inj differs
    rw [same] at looks
    cases shown : look ((recordBare t).field "shown") <;> simp [shown] at looks

/-- A break with one part of an unknown type, which came as text. -/
def pause : Record :=
  ⟨eventLayout, [.absent, .value (.text "text"), .value (.list [some (.unknown ⟨"Pause", .json "1"⟩)]), .absent]⟩

/-- What identifies an event without parts. What it shows is left out. -/
def appointment : Record :=
  RecordOf.identity ⟨eventLayout, [.value (.text "day"), .null, .absent, .absent]⟩

/-- It is not enough that formulas read their inputs: the body of an unknown record is one of these, and is not kept.
Nor that derived fields are equal in state: the identity of a record has none of them, and null is derived where they
were absent. -/
theorem not_decode_encode : ¬ RoundTrips Formulas.ReadsInputs (RecordOf.HasDerived Eq) ∧
    ¬ RoundTrips Formulas.Local (RecordOf.HasDerived fun h g => h.equals .state g = true) := by
  constructor
  · have known : recordKnown eventSchema (RecordOf.HasDerived Eq bodyFormulas) pause :=
      ⟨rfl, rfl, hasDerived_event rfl rfl, fun _ => trivial, fun _ => ⟨rfl, trivial⟩, trivial⟩
    have written : encode pause = .ok [3, 1, 14, 1, 5, 80, 97, 117, 115, 101, 1, 0] := by decide +kernel
    exact not_roundTrips readsInputs_bodyFormulas known written (·.same (.value (.text "text"))) (by decide +kernel)
  · -- From an identity without parts the formula computes null.
    have known : recordKnown eventSchema
        (RecordOf.HasDerived (fun h g => h.equals .state g = true) partsFormulas) appointment :=
      ⟨rfl, rfl, hasDerived_event rfl rfl, fun _ => trivial, trivial⟩
    have written : encode appointment = .ok [3, 1, 3, 3, 100, 97, 121] := by decide +kernel
    exact not_roundTrips local_partsFormulas known written Field.isNull (by decide +kernel)

end Wire

end EntityGraph
