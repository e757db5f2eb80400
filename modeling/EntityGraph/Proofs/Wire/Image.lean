import EntityGraph.Proofs.Wire.Gives

/-! What can be read at all: a record that comes from bytes, whatever they are, conforms to its schema, can be written,
and is read back from what is written of it. -/

namespace EntityGraph

open List

/-- Each field on the wire that holds a value holds one of its kind. -/
def RecordOf.Fits (r : Record) : Prop :=
  ∀ (i : Nat) (info : FieldInfo) (v : Value), r.layout.fields[i]? = some info → info.onWire = true →
    r.fields[i]? = some (.value v) → info.kind.accepts v = true

/-- A kind of records has room for a layout: it names the type, or an open type that the type is a member of. -/
def Kind.Admits (s : Schema) (l : Layout) : Kind → Prop
  | .record name => name = l.name
  | .openType name => s.member? name l.name = some l
  | _ => False

namespace Wire

open Reader

/-- What a reader can give for a kind, in a field of its own or not, with the room that is left for what is nested. -/
inductive Reads (F : Formulas) (s : Schema) : Bool → Nat → Kind → Value → Prop where
  | bool (flagged : Bool) (room : Nat) (b : Bool) : Reads F s flagged room .bool (.bool b)
  | int (flagged : Bool) (room : Nat) (n : Int64) : Reads F s flagged room .int (.int n)
  | double (flagged : Bool) (room : Nat) (x : Double) : Reads F s flagged room .double (.double x)
  | text (flagged : Bool) (room : Nat) {t : String} (short : t.utf8ByteSize ≤ Limits.textBytes) :
    Reads F s flagged room .text (.text t)
  | enum (flagged : Bool) (room : Nat) {name : String} {e : EnumValue}
    (listed : e.isDynamic = true ∨ ∃ listed, s.enum? name = some listed ∧ (e.id, e.name) ∈ listed.values) :
    Reads F s flagged room (.enum name) (.enum e)
  /-- A record takes one level. Its fields are those on the wire, and what is derived from them. -/
  | record (flagged : Bool) {room : Nat} {kind : Kind} {r : Record} (admits : kind.Admits s r.layout)
    (known : s.type? r.layout.name = some r.layout) (received : r.layout.receive F r.sent = r)
    (fields : ∀ (i : Nat) (info : FieldInfo) (v : Value), r.layout.fields[i]? = some info → info.onWire = true →
      r.fields[i]? = some (.value v) → Reads F s true room info.kind v) :
    Reads F s flagged (room + 1) kind (.record r)
  | unknown (flagged : Bool) (room : Nat) {name typeName : String} (bytes : List UInt8)
    (none : s.member? name typeName = none) :
    Reads F s flagged room (.openType name) (.unknown ⟨typeName, .binary bytes⟩)
  /-- A collection takes one level, but not in a field of its own. -/
  | list {flagged : Bool} {room inner : Nat} {k : Kind} {items : List (Option Value)}
    (nests : room = if flagged then inner else inner + 1) (few : items.length ≤ Limits.collectionItems)
    (elements : ∀ v, some v ∈ items → Reads F s false inner k v) :
    Reads F s flagged room (.list k) (.list items)
  | map {flagged : Bool} {room inner : Nat} {k : Kind} {entries : List (String × Option Value)}
    (nests : room = if flagged then inner else inner + 1) (few : entries.length ≤ Limits.collectionItems)
    (sorted : (entries.map Prod.fst).Pairwise (· < ·))
    (elements : ∀ key v, (key, some v) ∈ entries → Reads F s false inner k v) :
    Reads F s flagged room (.map k) (.map entries)

section Reading

variable {F : Formulas} {s : Schema} {room : Nat} {flagged : Bool} {kind : Kind} {r : Record} {v : Value}
  {depth : Nat} {name : String} {t : Record} {site : Site} {k : Kind}

theorem Reads.admitted {flagged' : Bool} {kind' : Kind} (reads : Reads F s flagged room kind (.record r))
    (admits : kind'.Admits s r.layout) : Reads F s flagged' room kind' (.record r) := by
  cases reads with
  | record _ _ known received fields => exact .record flagged' admits known received fields

/-- Values other than collections are the same in a field of their own. -/
theorem Reads.own (reads : Reads F s flagged room kind v) (single : kind.isCollection = false) :
    Reads F s true room kind v := by
  cases reads with
  | bool _ _ b => exact .bool true room b
  | int _ _ n => exact .int true room n
  | double _ _ x => exact .double true room x
  | text _ _ short => exact .text true room short
  | enum _ _ listed => exact .enum true room listed
  | record _ admits known received fields => exact .record true admits known received fields
  | unknown _ _ bytes none => exact .unknown true room bytes none
  | list _ _ _ => cases single
  | map _ _ _ _ => cases single

section Inner

variable {value : Kind → Reader Value} (inner : ∀ kind, Gives (value kind) (Reads F s false room kind))
  {outer : Nat}
include inner

/-- The elements of a collection are read with the room that is left for them. -/
theorem list_reads (nests : outer = if flagged then room else room + 1) (k : Kind) (count : Nat)
    (hasNull : Bool) (few : count ≤ Limits.collectionItems) :
    Gives (list (value k) count hasNull) (Reads F s flagged outer (.list k)) := by
  refine (list_gives (inner k) count hasNull).mono ?_
  rintro _ ⟨items, rfl, size, elements⟩
  exact .list nests (size.trans few) elements

theorem map_reads (nests : outer = if flagged then room else room + 1) (k : Kind) (count : Nat)
    (hasNull : Bool) (few : count ≤ Limits.collectionItems) :
    Gives (map (value k) count hasNull) (Reads F s flagged outer (.map k)) := by
  refine (map_gives (inner k) count hasNull).mono ?_
  rintro _ ⟨entries, rfl, sorted, size, elements⟩
  exact .map nests (size.trans few) sorted elements

theorem fieldValue_reads (kind : Kind) (flags : List Bool) :
    Gives (fieldValue value kind flags) fun r => Reads F s true room kind r.1 := by
  cases kind with
  | bool =>
    refine Gives.andThen ?_
    rintro ⟨b, flags⟩
    exact Gives.pure (.bool true room b)
  | list k =>
    have empty : Reads F s true room (.list k) (.list []) := .list rfl (Nat.zero_le _) (by simp)
    exact fieldCollection_gives empty (list_reads inner rfl k) flags
  | map k =>
    have empty : Reads F s true room (.map k) (.map []) :=
      .map rfl (Nat.zero_le _) List.Pairwise.nil (by simp)
    exact fieldCollection_gives empty (map_reads inner rfl k) flags
  -- Other kinds are read in a field as they are anywhere.
  | _ => exact (inner _).bind fun v read => Gives.pure (read.own rfl)

/-- A record that was read holds what its fields can hold, and is what is received of its own fields. -/
theorem record_reads {layout : Layout} (accepted : layout.Accepted) (known : s.type? layout.name = some layout) :
    Gives (Reader.record F value layout) fun r => r.layout = layout ∧
      Reads F s false (room + 1) (.record layout.name) (.record r) := by
  refine (record_gives (fieldValue_reads inner) F accepted).mono ?_
  rintro _ ⟨count, sent, rfl, expected⟩
  refine ⟨Layout.layout_receive, ?_⟩
  have same : (layout.receive F sent).layout = layout := Layout.layout_receive
  refine .record false ?_ ?_ ?_ fun i info v found onWire holds => ?_
  · rw [same]
    rfl
  · rwa [same]
  · rw [same]
    exact accepted.receive_sent
  · -- A field on the wire has its place there, and holds what was sent in that place.
    rw [same] at found
    obtain ⟨k, position⟩ := getElem?_of_mem ((accepted.wire i).mpr ⟨info, found, onWire⟩)
    rw [accepted.getElem?_receive position, Option.some.injEq] at holds
    cases there : sent[k]? with
    | none =>
      -- What was not sent is absent.
      rw [there] at holds
      cases holds
    | some f =>
      rw [there] at holds
      obtain ⟨j, position', each⟩ := exists_of_forall₂ expected there
      rw [getElem?_take] at position'
      split at position'
      · rw [position] at position'
        cases position'
        exact each info found v holds
      · cases position'

end Inner

variable (accepted : ∀ {name l}, s.type? name = some l → l.Accepted)
include accepted

/-- What is nested is read with less room, and without room not at all. -/
theorem valueWith_reads {deeper : Option (Kind → Reader Value)}
    (inner : ∀ value ∈ deeper, ∃ less, room = less + 1 ∧ ∀ kind, Gives (value kind) (Reads F s false less kind))
    (kind : Kind) : Gives (valueWith F s deeper kind) (Reads F s false room kind) := by
  -- A record that is named by its kind or by the bytes is read in the same way.
  have below : ∀ layout, s.type? layout.name = some layout → kind.Admits s layout →
      Gives (nested F deeper layout) (Reads F s false room kind) := by
    intro layout known admits
    have record : ∀ value ∈ deeper, Gives (Reader.record F value layout) fun r => r.layout = layout ∧
        Reads F s false room (.record layout.name) (.record r) := by
      intro value member
      obtain ⟨less, rfl, reads⟩ := inner value member
      exact record_reads reads (accepted known) known
    refine (nested_gives record).mono ?_
    rintro _ ⟨r, rfl, same, reads⟩
    refine reads.admitted ?_
    rwa [same]
  have known : ∀ {name layout}, s.type? name = some layout → s.type? layout.name = some layout := by
    intro name layout found
    rwa [Schema.name_of_type? found]
  cases kind with
  | bool => exact Gives.map fun _ b _ _ => .bool false room b
  | int => exact Gives.map fun _ n _ _ => .int false room n
  | double => exact Gives.map fun _ x _ _ => .double false room x
  | text => exact Gives.map ((text_gives Limits.textBytes "text").mono fun s short => .text false room short)
  | enum name =>
    refine (enum_gives s name).mono ?_
    rintro _ ⟨e, rfl, listed⟩
    exact .enum false room listed
  | record name =>
    cases found : s.type? name with
    | none =>
      simp only [valueWith, found]
      exact Gives.throw _
    | some layout =>
      simp only [valueWith, found]
      exact below layout (known found) (Schema.name_of_type? found).symm
  | openType name =>
    refine Gives.andThen fun typeName => ?_
    split
    · -- A name that the open type knows is that of a member.
      rename_i layout found
      have type := Schema.type?_of_member? found
      refine below layout (known type) ?_
      show s.member? name layout.name = some layout
      rwa [Schema.name_of_type? type]
    · rename_i none
      exact Gives.andThen fun body => Gives.pure (.unknown false room body none)
  | list k =>
    refine nestedCollection_gives fun sized member count hasNull few => ?_
    obtain ⟨value, found, rfl⟩ := Option.map_eq_some_iff.mp member
    obtain ⟨less, nests, reads⟩ := inner value found
    exact list_reads reads nests k count hasNull few
  | map k =>
    refine nestedCollection_gives fun sized member count hasNull few => ?_
    obtain ⟨value, found, rfl⟩ := Option.map_eq_some_iff.mp member
    obtain ⟨less, nests, reads⟩ := inner value found
    exact map_reads reads nests k count hasNull few

theorem value_reads (room : Nat) (kind : Kind) : Gives (Reader.value F s room kind) (Reads F s false room kind) := by
  -- The reader for what is nested is the same one with less room, so the induction is on the room.
  induction room generalizing kind with
  | zero => exact valueWith_reads accepted (fun value member => by cases member) kind
  | succ room ih =>
    refine valueWith_reads accepted (fun value member => ?_) kind
    cases member
    exact ⟨room, rfl, ih⟩

/-- A record that comes from bytes is one that can be read, with room for one level more than a nested one. -/
theorem decode_reads {bytes : List UInt8} (read : decode F s name bytes = .ok t) :
    s.type? name = some t.layout ∧ Reads F s false (Limits.depth + 1) (.record name) (.record t) := by
  unfold decode at read
  split at read
  · rename_i layout found
    have named := Schema.name_of_type? found
    unfold decodeAs Reader.run topRecord at read
    split at read
    · rename_i result
      cases read
      rw [← named] at found
      -- The record itself takes no room, only what is nested in it does.
      obtain ⟨same, reads⟩ := record_reads (value_reads accepted Limits.depth) (accepted found) found _ _ _ result
      rw [named] at found reads
      exact ⟨same ▸ found, reads⟩
    · cases read
  · cases read

omit accepted

theorem sized_of_received (received : r.layout.receive F r.sent = r) : r.fields.length = r.layout.fields.length := by
  have size : (r.layout.receive F r.sent).fields.length = r.layout.fields.length := Layout.length_receive
  rwa [received] at size

/-- A value that can be read conforms to the schema at every depth, and is of its kind. -/
theorem Reads.conforms (reads : Reads F s flagged room kind v) :
    v.Known s RecordOf.Fits kind ∧ kind.accepts v = true := by
  induction reads with
  | bool => exact ⟨trivial, rfl⟩
  | int => exact ⟨trivial, rfl⟩
  | double => exact ⟨trivial, rfl⟩
  | text => exact ⟨trivial, rfl⟩
  | enum _ _ listed => exact ⟨listed, rfl⟩
  | @record _ _ kind r admits known received fields ih =>
    -- What is asked of the record and what is known of its values both come from the fields.
    have fits : r.Fits := fun i info v found onWire holds => (ih i info v found onWire holds).2
    have recorded := recordKnown_iff.mpr ⟨known, sized_of_received received, fits,
      fun i info v found onWire holds => (ih i info v found onWire holds).1⟩
    cases kind with
    | record name =>
      cases admits
      exact ⟨recorded, by simp [Kind.accepts, RecordOf.typeName]⟩
    | openType name =>
      have member : s.member? name r.layout.name = some r.layout := admits
      exact ⟨⟨by rw [member]; rfl, recorded⟩, rfl⟩
    | _ => cases admits
  | unknown _ _ _ none => exact ⟨none, rfl⟩
  | list _ _ _ ih =>
    refine ⟨Schema.known_conjoins.items_iff.mpr fun v member => (ih v member).1, all_eq_true.mpr ?_⟩
    rintro (_ | v) member
    · rfl
    · exact (ih v member).2
  | map _ _ sorted _ ih =>
    have values := Schema.known_conjoins.entries_iff.mpr fun key v member => (ih key v member).1
    refine ⟨⟨sorted, values⟩, all_eq_true.mpr ?_⟩
    rintro ⟨key, _ | v⟩ member
    · rfl
    · exact (ih key v member).2

theorem inner_add {inner limit : Nat} (nests : room = if flagged then inner else inner + 1)
    (sum : depth + room = limit) : (if flagged then depth else depth + 1) + inner = limit := by
  cases flagged <;> simp only [Bool.false_eq_true, if_false, if_true] at nests ⊢ <;> omega

/-- The elements of a list are written if each of them is. -/
theorem exists_items_eq_ok {items : List (Option Value)}
    (each : ∀ v, some v ∈ items → ∃ part, Wire.value site false v k depth = .ok part) (out : List UInt8) :
    ∃ body, Wire.items site items k depth out = .ok body := by
  induction items generalizing out with
  | nil => exact ⟨_, rfl⟩
  | cons item rest ih =>
    have later := ih fun v member => each v (.tail _ member)
    cases item with
    | none => exact later out
    | some v =>
      obtain ⟨part, first⟩ := each v mem_cons_self
      obtain ⟨body, others⟩ := later (part.2.reverse ++ out)
      refine ⟨body, ?_⟩
      rw [Wire.items, first]
      exact others

/-- The entries of a map are written if the value of each of them is. -/
theorem exists_entries_eq_ok {entries : List (String × Option Value)}
    (each : ∀ key v, (key, some v) ∈ entries → ∃ part, Wire.value site false v k depth = .ok part) (out : List UInt8) :
    ∃ body, Wire.entries site entries k depth out = .ok body := by
  induction entries generalizing out with
  | nil => exact ⟨_, rfl⟩
  | cons entry rest ih =>
    have later := ih fun key v member => each key v (.tail _ member)
    rcases entry with ⟨key, _ | v⟩
    · exact later _
    · obtain ⟨part, first⟩ := each key v mem_cons_self
      obtain ⟨body, others⟩ := later (part.2.reverse ++ ((Wire.text key).reverse ++ out))
      refine ⟨body, ?_⟩
      rw [Wire.entries, first]
      exact others

/-- A record is written if the values are that it has on the wire. -/
theorem exists_record_of_fields {r : SizedRecord} (isAccepted : r.layout.Accepted)
    (shallow : depth ≤ Limits.depth) (each : ∀ (i : Nat) (info : FieldInfo) (v : Value), r.layout.fields[i]? = some
      info → info.onWire = true → r.fields[i]? = some (.value v) → ∀ site, ∃ part, Wire.value site true v info.kind
      depth = .ok part) : ∃ bytes, Wire.record r depth = .ok bytes := by
  refine exists_record_eq_ok shallow fun i member => ?_
  obtain ⟨info, found, onWire⟩ := (isAccepted.wire i).mp member
  rw [partAt_eq found]
  -- A field without a value has flags only.
  cases there : r.fields[i]? with
  | none => exact ⟨_, rfl⟩
  | some f =>
    cases f with
    | absent => exact ⟨_, rfl⟩
    | null => exact ⟨_, rfl⟩
    | value v =>
      obtain ⟨part, written⟩ := each i info v found onWire there ⟨r.layout.name, info.name⟩
      refine ⟨(true :: true :: part.1, part.2), ?_⟩
      rw [Option.getD_some, fieldPart, written]
      rfl

include accepted

/-- A value that can be read can be written, as deep as it was read. -/
theorem Reads.exists_value_eq_ok (reads : Reads F s flagged room kind v) :
    ∀ (site : Site) (depth : Nat), depth + room = Limits.depth →
      ∃ part, Wire.value site flagged v kind depth = .ok part := by
  induction reads with
  | bool => exact fun _ _ _ => ⟨_, rfl⟩
  | int => exact fun _ _ _ => ⟨_, rfl⟩
  | double => exact fun _ _ _ => ⟨_, rfl⟩
  | @text _ _ s short =>
    intro site depth _
    refine ⟨([], Wire.text s), ?_⟩
    rw [Wire.value, boundedText, if_neg (by omega)]
    rfl
  | enum => exact fun _ _ _ => ⟨_, rfl⟩
  | @record _ room kind r admits known received fields ih =>
    intro site depth sum
    -- The record is one level below the value, and there is room for it.
    obtain ⟨bytes, written⟩ := exists_record_of_fields (r := ⟨r, sized_of_received received⟩) (accepted known)
      (show depth + 1 ≤ Limits.depth by omega)
      fun i info v found onWire holds site => ih i info v found onWire holds site (depth + 1) (by omega)
    cases kind with
    | record name =>
      cases admits
      refine ⟨([], prefixed bytes), ?_⟩
      rw [Wire.value, if_pos rfl, written]
      rfl
    | openType name =>
      refine ⟨([], Wire.text r.layout.name ++ prefixed bytes), ?_⟩
      rw [Wire.value, written]
      rfl
    | _ => cases admits
  | unknown => exact fun _ _ _ => ⟨_, rfl⟩
  | @list flagged room inner k items nests few _ ih =>
    intro site depth sum
    -- An empty list is written as a flag, and any other one has few enough elements.
    obtain ⟨body, written⟩ := exists_items_eq_ok (fun v member => ih v member site _ (inner_add nests sum)) []
    rw [Wire.value]
    split
    · exact ⟨_, rfl⟩
    · refine ⟨collectionPart flagged (items.map Option.isSome) body, ?_⟩
      rw [checkItems, if_neg (by omega), written]
      rfl
  | @map flagged room inner k entries nests few _ _ ih =>
    intro site depth sum
    obtain ⟨body, written⟩ := exists_entries_eq_ok (fun key v member => ih key v member site _ (inner_add nests sum)) []
    rw [Wire.value]
    split
    · exact ⟨_, rfl⟩
    · refine ⟨collectionPart flagged (entries.map fun e => e.2.isSome) body, ?_⟩
      rw [checkItems, if_neg (by omega), written]
      rfl

/-- A record that came from bytes can be written. -/
theorem exists_encode_eq_ok (reads : Reads F s false (Limits.depth + 1) (.record name) (.record t)) :
    ∃ bytes, encode t = .ok bytes := by
  cases reads with
  | record _ _ known received fields =>
    -- The record is written at depth zero, where all the room is left for its fields.
    refine exists_record_of_fields (r := ⟨t, sized_of_received received⟩) (accepted known) (Nat.zero_le _) ?_
    intro i info v found onWire holds site
    exact (fields i info v found onWire holds).exists_value_eq_ok accepted site 0 (Nat.zero_add _)

omit accepted

/-- A value that is sent stands in a field on the wire. -/
theorem of_mem_sent (isAccepted : r.layout.Accepted) (member : .value v ∈ r.sent) :
    ∃ (i : Nat) (info : FieldInfo), r.layout.fields[i]? = some info ∧ info.onWire = true ∧
      r.fields[i]? = some (.value v) := by
  obtain ⟨i, position, holds⟩ := mem_map.mp member
  obtain ⟨info, found, onWire⟩ := (isAccepted.wire i).mp position
  refine ⟨i, info, found, onWire, ?_⟩
  cases there : r.fields[i]? with
  | none =>
    rw [there] at holds
    cases holds
  | some f =>
    rw [there] at holds
    exact congrArg some holds

/-- What can be read is received as it was sent. -/
theorem respects_reads (channel : Channel s s) : Respects F s s RecordOf.Fits fun v w =>
    ∀ flagged room kind, Reads F s flagged room kind v → w = v where
  bool _ _ _ _ _ := rfl
  int _ _ _ _ _ := rfl
  double _ _ _ _ _ := rfl
  text _ _ _ _ _ := rfl
  enum _ _ _ _ _ := rfl
  unknown name body flagged room kind reads := by
    -- A reader keeps an unknown record as bytes.
    cases reads
    rfl
  list each flagged room kind reads := by
    cases reads with
    | list _ _ elements =>
      refine congrArg Value.list (eq_of_forall₂ each fun item member item' related => ?_)
      cases related with
      | none => rfl
      | some same => rw [same _ _ _ (elements _ member)]
  map each flagged room kind reads := by
    cases reads with
    | map _ _ _ elements =>
      refine congrArg Value.map (eq_of_forall₂ each fun entry member entry' related => ?_)
      rcases related with ⟨key, related⟩
      cases related with
      | none => rfl
      | some same => rw [same _ _ _ (elements _ _ member)]
  record known fits found each flagged room kind reads := by
    rw [known] at found
    cases found
    cases reads with
    | record _ _ _ received fields =>
      -- The fields arrive as they are, and the record is what is received of them.
      have sent := eq_of_forall₂ each fun f member f' related => by
        cases related with
        | absent => rfl
        | null => rfl
        | value same =>
          obtain ⟨i, info, found, onWire, holds⟩ := of_mem_sent (channel.writes known) member
          rw [same _ _ _ (fields i info _ found onWire holds)]
      rw [sent, received]
  forgotten member none _ := by
    rw [none] at member
    cases member

end Reading

/-- Whatever bytes a record was read from, it is of its type and conforms to the schema at every depth: the fields on
the wire hold values of their kinds, values of enumerations are listed or dynamic, and values of open types are members
or unknown. It can be written, and is read back from that. -/
theorem decode_stable {serial : Nat} {d : Declarations} {s : Schema} {F : Formulas}
    (compiled : Schema.compile serial d = .ok s) {name : String} {bytes : List UInt8} {t : Record}
    (read : decode F s name bytes = .ok t) :
    s.type? name = some t.layout ∧ recordKnown s RecordOf.Fits t ∧
      ∃ written, encode t = .ok written ∧ ∀ t', decode F s name written = .ok t' → t' = t := by
  -- Writer and reader have one schema, which is compatible with itself.
  have channel := Channel.of_compile compiled compiled (Schema.Compatible.refl s)
  obtain ⟨type, reads⟩ := decode_reads channel.reads read
  have known : recordKnown s RecordOf.Fits t := reads.conforms.1
  obtain ⟨written, ok⟩ := exists_encode_eq_ok channel.reads reads
  refine ⟨type, known, written, ok, fun t' again => ?_⟩
  rw [← Schema.name_of_type? type] at again
  have same := decode_transfers channel (respects_reads channel) known ok again _ _ _ reads
  exact Value.record.inj same

/-- A survey has a mood, which is shown as it is, marks by name, and parts. -/
def surveyType : TypeDecl :=
  ⟨"Survey", none, [⟨"mood", .enum "Mood", 1, false, false, none, []⟩,
    ⟨"shown", .enum "Mood", 2, false, false, some (.firstOf ["mood"]), []⟩,
    ⟨"marks", .map .int, 3, false, false, none, []⟩, ⟨"parts", .list (.openType "Part"), 4, false, false, none, []⟩]⟩

def surveyDeclarations : Declarations :=
  ⟨[surveyType], [⟨"Mood", [(7, "calm")]⟩], [⟨"Part", .variety, ["Survey"]⟩]⟩

def surveySchema : Schema :=
  ⟨0, [surveyDeclarations.layout 0 [] surveyType [1]], surveyDeclarations.enums, surveyDeclarations.opens⟩

theorem compile_survey : Schema.compile 0 surveyDeclarations = .ok surveySchema := by decide +kernel

/-- A survey from a careless writer. The number of fields takes more bytes than it needs and leaves out the parts, more
flags are set than there are fields, the marks are not in order and one comes twice, and something follows the last
field. -/
def surveyBytes : List UInt8 :=
  [130, 0, 1, 223, 7, 3, 1, 98, 2, 1, 97, 4, 1, 98, 1, 9, 9]

/-- The survey that is read from them is written as other bytes, and read from those again. -/
theorem decode_stable_survey : ∃ t,
    decode ⟨fun _ _ => .absent, fun _ _ => .absent⟩ surveySchema "Survey" surveyBytes = .ok t ∧
    surveySchema.type? "Survey" = some t.layout ∧ recordKnown surveySchema RecordOf.Fits t ∧
    encode t = .ok [3, 1, 31, 7, 2, 1, 97, 4, 1, 98, 1] ∧
    decode ⟨fun _ _ => .absent, fun _ _ => .absent⟩ surveySchema "Survey" [3, 1, 31, 7, 2, 1, 97, 4, 1, 98, 1] =
      .ok t := by
  obtain ⟨t, read⟩ := Except.exists_of_isOk
    (x := decode ⟨fun _ _ => .absent, fun _ _ => .absent⟩ surveySchema "Survey" surveyBytes) (by decide +kernel)
  obtain ⟨t', again⟩ := Except.exists_of_isOk
    (x := decode ⟨fun _ _ => .absent, fun _ _ => .absent⟩ surveySchema "Survey" [3, 1, 31, 7, 2, 1, 97, 4, 1, 98, 1])
    (by decide +kernel)
  have tidy : ((decode ⟨fun _ _ => .absent, fun _ _ => .absent⟩ surveySchema "Survey" surveyBytes).toOption.bind
      fun t => (encode t).toOption) = some [3, 1, 31, 7, 2, 1, 97, 4, 1, 98, 1] := by decide +kernel
  obtain ⟨type, known, written, ok, stable⟩ := decode_stable compile_survey read
  rw [read] at tidy
  change (encode t).toOption = _ at tidy
  rw [ok] at tidy
  cases tidy
  exact ⟨t, read, type, known, ok, stable t' again ▸ again⟩

end Wire

end EntityGraph
