import EntityGraph.Proofs.Graph.Coherence
import EntityGraph.Proofs.Graph.Filling
import EntityGraph.Proofs.Graph.Results
import EntityGraph.Proofs.Record.IdentityText

/-! What a node builds to is found as that node: its snapshot has the key under which the node is known, as long as what
identifies it is given and nothing of that is lost where links lead back. -/

namespace EntityGraph

open List

variable {n : Node} {c : NodeId}

theorem Node.Names.mem_links (names : n.Names c) : c ∈ n.links := by
  obtain ⟨i, info, f, -, -, field, link⟩ := names
  exact Stored.mem_fieldLinks_of_mem (mem_of_getElem? field) link

namespace Node

/-- What holds of the identifying fields of a node is checked one field after the other. -/
theorem forall_identifying_iff (n : Node) (holds : FieldInfo → Field Stored → Prop) :
    (∀ (i : Nat) (info : FieldInfo) (f : Field Stored), n.layout.fields[i]? = some info → info.identifying = true →
      n.fields[i]? = some f → holds info f) ↔
      ∀ e ∈ n.layout.fields.zip n.fields, e.1.identifying = true → holds e.1 e.2 := by
  -- A pair stands at the position that both of its parts have.
  constructor
  · intro each e member identifying
    obtain ⟨i, found⟩ := mem_iff_getElem?.mp member
    obtain ⟨there, field⟩ := getElem?_zip_eq_some.mp found
    exact each i e.1 e.2 there identifying field
  · intro each i info f there identifying field
    exact each (info, f) (mem_of_getElem? (getElem?_zip_eq_some.mpr ⟨there, field⟩)) identifying

instance (n : Node) : Decidable n.Given :=
  decidable_of_iff _ (n.forall_identifying_iff fun info f =>
    info.derivation = none ∧ Stored.areUnderivedFields [f] = true).symm

instance (f : Field Stored) : Decidable (∃ v, f = Stored.plainField v) :=
  match f with
  | .value (.plain v) => isTrue ⟨.value v, rfl⟩
  | .null => isTrue ⟨.null, rfl⟩
  | .absent => isTrue ⟨.absent, rfl⟩
  | .value (.link _) | .value (.list _) | .value (.map _) | .value (.inline _) =>
    isFalse (by rintro ⟨v, same⟩; cases v <;> cases same)

instance (n : Node) : Decidable n.Plain :=
  decidable_of_iff _ (n.forall_identifying_iff fun _ f => ∃ v, f = Stored.plainField v).symm

/-- The nodes that the identifying fields link to. -/
def names (n : Node) : List NodeId :=
  (n.layout.fields.zip n.fields).flatMap fun e => if e.1.identifying then Stored.fieldLinks [e.2] else []

theorem Names.mem_names (names : n.Names c) : c ∈ n.names := by
  obtain ⟨i, info, f, there, identifying, field, link⟩ := names
  refine mem_flatMap.mpr ⟨(info, f), mem_of_getElem? (getElem?_zip_eq_some.mpr ⟨there, field⟩), ?_⟩
  rw [if_pos identifying]
  exact link

end Node

namespace Graph

open Relation Step

variable {g : Graph} {id : NodeId} {known : Record → Prop} {s : Schema} {r : Record} {op : Operation}

/-- A node tells its entity: its identifying fields are given, the nodes that they link to tell their entities, and one
of these that leads back to it has nothing to build in its own identifying fields. -/
inductive Told (g : Graph) : NodeId → Prop where
  | intro {id : NodeId} {n : Node} (live : g.node? id = some n) (identifiable : n.layout.identifiable = true)
      (given : n.Given) (named : ∀ c, n.Names c → Told g c)
      (ahead : ∀ c m, n.Names c → g.node? c = some m → m.Plain ∨ ¬ ReflTransGen g.Leads c id) : Told g id

/-- Whether a node tells its entity is a matter of the fields below it. -/
theorem SameBelow.told {g' : Graph} (same : SameBelow g g' id) (told : g.Told id) : g'.Told id := by
  -- A live node is live in the other graph, with the same fields.
  have at_ : ∀ {c n}, (g'.node? c).map Node.content = (g.node? c).map Node.content → g.node? c = some n →
      ∃ n', g'.node? c = some n' ∧ n'.content = n.content := by
    intro c n equal live
    rwa [live, Option.map_some, Option.map_eq_some_iff] at equal
  induction told with
  | @intro id n live identifiable given named ahead ih =>
    obtain ⟨n', live', content⟩ := at_ (same id .refl) live
    have layout : n'.layout = n.layout := congrArg RecordOf.layout content
    have fields : n'.fields = n.fields := congrArg RecordOf.fields content
    -- So it names the same nodes, and below these the graphs are the same as well.
    have names : ∀ {c}, n'.Names c → n.Names c := by
      intro c
      rw [Node.Names, layout, fields]
      exact fun name => name
    have below : ∀ {c}, n.Names c → SameBelow g g' c := fun {c} name =>
      same.below (.single (by rw [Leads, outgoing_of_live live]; exact name.mem_links))
    refine .intro live' (by rw [layout]; exact identifiable) (by rw [Node.Given, layout, fields]; exact given)
      (fun c name => ih c (names name) (below (names name))) fun c m' name there' => ?_
    -- A named node has the same fields in both graphs, and leads back in both or in none.
    have there := (below (names name)) c .refl
    rw [there', Option.map_some, eq_comm, Option.map_eq_some_iff] at there
    obtain ⟨m, there, content'⟩ := there
    rw [(below (names name)).leads_iff]
    refine (ahead c m (names name) there).imp_left fun plain => ?_
    rw [Node.Plain, ← show m.layout = m'.layout from congrArg RecordOf.layout content',
      ← show m.fields = m'.fields from congrArg RecordOf.fields content']
    exact plain

/-- Whether a node tells its entity, as far as nodes name each other in no more than the given number of steps. -/
def tells (g : Graph) : Nat → NodeId → Bool
  | 0, _ => false
  | depth + 1, id => (g.node? id).any fun n => n.layout.identifiable && decide n.Given && n.names.all fun c =>
    g.tells depth c && ((g.node? c).all (fun m => decide m.Plain) || !(g.ancestors id).contains c)

/-- What is computed holds. -/
theorem Sound.told_of_tells (sound : Sound g) {depth : Nat} (tells : g.tells depth id = true) : g.Told id := by
  -- With each step down the named nodes are looked at with one step less.
  induction depth generalizing id with
  | zero => cases tells
  | succ depth ih =>
    obtain ⟨n, live, holds⟩ := (Option.any_eq_true _ _).mp tells
    simp only [Bool.and_eq_true, decide_eq_true_eq, all_eq_true, Bool.or_eq_true] at holds
    obtain ⟨⟨identifiable, given⟩, each⟩ := holds
    refine .intro live identifiable given (fun c name => ih (each c name.mem_names).1) fun c m name there => ?_
    refine (each c name.mem_names).2.imp (fun plain => ?_) fun apart => ?_
    · rw [there] at plain
      simpa using plain
    · -- What leads to a node is among its ancestors.
      rw [← sound.mem_ancestors (contains_iff.mpr ⟨n, live⟩)]
      simpa using apart

/-- A record stands for the entity of a node, if the node tells it and all nodes below are entities with all
identifying fields. -/
def Recognizes (s : Schema) (known : Record → Prop) (g : Graph) (id : NodeId) (r : Record) : Prop :=
  (∀ c n, ReflTransGen g.Leads id c → g.node? c = some n → n.Draft s known g.keyOf ∧ n.Filled known) →
    g.Told id → Stands known (g.keyOf id) r

/-- Snapshots from which others are made stand for the entities that identify these. -/
theorem Transmits.recognizes (accepted : s.Accepted) (distinct : Distinct s known) (F : Formulas) :
    Transmits F (Recognizes s known) where
  below := by
    intro g g' id r same keys right named told
    rw [keys id .refl]
    -- The nodes below are the same drafts, since these depend on fields and keys alone.
    refine right (fun c n leads live => ?_) (same.symm.told told)
    have here := same c leads
    rw [live, Option.map_some, Option.map_eq_some_iff] at here
    obtain ⟨n', live', content⟩ := here
    have layout : n.layout = n'.layout := (congrArg RecordOf.layout content).symm
    have fields : n.fields = n'.fields := (congrArg RecordOf.fields content).symm
    have key : n.key = n'.key := by simpa [keyOf, live, live'] using (keys c leads).symm
    obtain ⟨draft, filled⟩ := named c n' ((same.leads_iff c).mpr leads) live'
    refine ⟨draft.congr layout key fields fun d link => (keys d (leads.tail ?_)).symm, filled.congr layout key fields⟩
    rwa [Leads, outgoing_of_live live, Node.links, fields]
  made := by
    intro g id r sound _ made ready right named told
    cases told with
    | @intro _ n live identifiable given told ahead =>
      have links : ∀ c ∈ n.links, g.Leads id c := fun c link => by rwa [Leads, outgoing_of_live live]
      -- A link is replaced by the snapshot of its target, or by what stands for it.
      have reads : ∀ c ∈ n.links, ∃ m, g.node? c = some m ∧
          target F g c = .ok (m.cached.getD (standIn F m)) := by
        intro c link
        obtain ⟨m, there⟩ := contains_iff.mp (sound.closed id c (links c link))
        exact ⟨m, there, by simp [target, node, there]⟩
      have known' : ∀ c ∈ n.links, target F g c = .ok ((target F g c).toOption.getD r) := by
        intro c link
        obtain ⟨m, -, read⟩ := reads c link
        rw [read]
        rfl
      -- The record that is made is the node's content with these records in the place of links.
      rw [recordOf_eq_expand F live known', Except.ok.injEq] at made
      rw [← made, show g.keyOf id = n.key by simp [keyOf, live]]
      obtain ⟨draft, filled⟩ := named id n .refl live
      -- It stands for the entity if what replaces the named nodes stands for theirs.
      refine draft.stands_snapshot accepted distinct filled identifiable given F fun c name => ?_
      obtain ⟨m, there, read⟩ := reads c name.mem_links
      have leads := links c name.mem_links
      rw [read, Except.toOption, Option.getD_some]
      cases cached : m.cached with
      | some snapshot =>
        -- A snapshot was right before.
        refine right c snapshot leads (by rw [cached?_of_live there, cached]) (fun d k further => ?_) (told c name)
        exact named d k (.head leads further)
      | none =>
        -- Without a snapshot it leads back, so that nothing is lost in its stand-in.
        have back : ReflTransGen g.Leads c id := by
          refine (ready c leads).resolve_left ?_
          simp [cached?_of_live there, cached]
        have plain := (ahead c m name there).resolve_right (not_not.mpr back)
        obtain ⟨draft', filled'⟩ := named c m (.single leads) there
        rw [show g.keyOf c = m.key by simp [keyOf, there]]
        cases told c name with
        | intro there' identifiable' given' =>
          rw [there] at there'
          cases there'
          exact draft'.stands_standIn accepted distinct filled' identifiable' given' F plain

/-- What holds of the nodes and snapshots of every graph of a run in which no round fails. -/
structure Recognized (s : Schema) (known : Record → Prop) (g : Graph) : Prop where
  named : Named s known g
  snapshots : Snapshots (Recognizes s known) g

theorem Recognized.stands (recognized : Recognized s known g) (cached : g.cached? id = some r)
    (told : g.Told id) : Stands known (g.keyOf id) r :=
  recognized.snapshots id r cached (fun c n _ live => recognized.named c n live) told

/-- The operations of a conforming run in which no round fails. -/
def Unfailing (F : Formulas) (s : Schema) (known : Record → Prop) (g : Graph) : Operation → Prop
  | .settle contextual => Conforming F s s.declares known g (.settle contextual) ∧
    ∀ h ∈ roundStarts (F.withContextual contextual) g.maxRounds g,
      ((round (F.withContextual contextual)).run' h).isSome = true
  | op => Conforming F s s.declares known g op

theorem Unfailing.conforming {F : Formulas} {s : Schema}
    (unfailing : Unfailing F s known g op) : Conforming F s s.declares known g op := by
  cases op with
  | settle contextual => exact unfailing.1
  | _ => exact unfailing

namespace Recognized

variable {F : Formulas} {s : Schema} {g' : Graph}

section steps

variable (transmits : Transmits F (Recognizes s known)) (recognized : Recognized s known g)
  (sound : Sound g)
include transmits recognized

theorem congr (survives : Survives g g') (sound' : Sound g')
    (content : ∀ j, (g'.node? j).map Node.content = (g.node? j).map Node.content) (keys : ∀ j, g'.keyOf j = g.keyOf j)
    (cached : ∀ j, g'.cached? j = g.cached? j) : Recognized s known g' :=
  ⟨recognized.named.survives survives sound', transmits.congr content keys cached recognized.snapshots⟩

include sound

theorem quiet (quiet : Quiet g g') (cached : ∀ j, g'.cached? j = g.cached? j) : Recognized s known g' :=
  recognized.congr transmits (.of_framed quiet.toFramed) (sound.quiet quiet) quiet.content quiet.cores.keyOf cached

theorem pending (orphans created : List NodeId) :
    Recognized s known { g with orphans := orphans, created := created } :=
  recognized.quiet transmits sound (.pending g _ _ _) fun _ => rfl

theorem sweep : Recognized s known g.sweep :=
  ⟨recognized.named.survives (.of_swept sound.sweep) sound.sweep.sound, transmits.sweep sound recognized.snapshots⟩

/-- Holding a node or letting it go changes none of it. -/
theorem holds (id : NodeId) (f : Nat → Nat) :
    Recognized s known (g.update id fun n => { n with holds := f n.holds }) := by
  refine recognized.congr transmits (.of_holds g id f) (sound.holds id f)
    (map_node?_update g id _ Node.content fun _ => rfl) (fun j => ?_) (cached?_holds g id f)
  have keys := map_node?_update g id (fun n => { n with holds := f n.holds }) Node.key (fun _ => rfl) j
  rw [keyOf, keys, keyOf]

theorem touch (live : g.contains id = true) : Recognized s known (g.touch id) := by
  have altered : Altered g id g := ⟨sound, live, fun _ _ => rfl, rfl⟩
  exact ⟨recognized.named.survives (.of_framed (Quiet.touch g id).toFramed) (sound.quiet (.touch g id)),
    altered.snapshots transmits recognized.snapshots⟩

theorem built (leafy : Leafy g) (built : Built F g id r g') : Recognized s known g' :=
  ⟨recognized.named.survives (.of_framed built.toFramed) (sound.quiet built.toQuiet),
    built.snapshots leafy _ transmits recognized.snapshots⟩

end steps

section merges

variable (accepted : s.Accepted) (distinct : Distinct s known) (recognized : Recognized s known g)
include accepted distinct recognized

/-- Acts that are admitted, ready and complete keep it. -/
theorem performs (F : Formulas) (same : g.schema = s) (sound : Sound g) {acts : List Act}
    (admits : ∀ act ∈ acts, Admits s known g act) (ready : Acts.Ready s [] acts)
    (complete : ∀ r, .meet r ∈ acts → ∀ w : Write, w.Of s r → .write w ∈ acts) (performs : Performs acts g g') :
    Recognized s known g' := by
  have filling := (Filling.start same recognized.named).performs accepted distinct sound admits ready performs
  exact ⟨filling.named_of_complete distinct complete,
    (Transmits.recognizes accepted distinct F).edits sound recognized.snapshots (performs.edits sound)⟩

/-- Absorbing known records keeps it, also if it fails. -/
theorem absorb (F : Formulas) (same : g.schema = s) (sound : Sound g) (met : ∀ act ∈ Acts.ofRecord s r, act.Knows known)
    (parentRoot : Option NodeId) : Recognized s known ((Graph.absorb r parentRoot).after g) := by
  have transmits := Transmits.recognizes accepted distinct F
  have tidy := Acts.tidy_ofRecord s r
  have admits := admits_of_tidy tidy met g
  have traces := absorb_traces sound r parentRoot
  rw [same] at traces
  refine traces.after ?_ ?_
  · -- All that was met is complete, and what nobody links to is swept away.
    rintro id g' ⟨merged, performs, -, rfl⟩
    have sound' := (performs.sound sound).1
    have recognized' := recognized.performs accepted distinct F same sound admits (tidy.ready []) tidy.complete
      performs
    exact (recognized'.pending transmits sound' _ _).sweep transmits (sound'.quiet (.pending merged _ _ _))
  · -- After a failure what is not finished is swept away.
    rintro e g' ⟨done, merged, first, performs, rfl⟩
    have sound' := (performs.sound sound).1
    -- Some drafts lack identifying fields, and those are the ones that are swept.
    have filling := (Filling.start same recognized.named).performs accepted distinct sound
      (fun act member => admits act (first.subset member)) ((tidy.ready []).of_first first) performs
    have pending : Quiet merged { merged with created := [], orphans := merged.created ++ merged.orphans } :=
      .pending merged _ _ _
    refine ⟨filling.named_of_swept sound', transmits.sweep (sound'.quiet pending) ?_⟩
    exact transmits.congr pending.content pending.cores.keyOf (fun _ => rfl)
      (transmits.edits sound recognized.snapshots (performs.edits sound))

/-- A round that succeeds keeps it. -/
theorem round (conformed : Conformed F s known g) (shaped : Nodes Node.Shaped g)
    (conforms : ∀ e ∈ derivedAt F g, Conforms s s.declares known g e) :
    Ends (Graph.round F) g (fun _ g' => Recognized s known g') fun _ _ => True := by
  have transmits := Transmits.recognizes accepted distinct F
  obtain ⟨diff, g₁, derived, sound₁, ends⟩ := conformed.sound.round_parts F
  have schema₁ : g₁.schema = s := derived.schema.trans conformed.schema_eq
  -- First the diff and the results are made, which adds snapshots; then the results are stored.
  have recognized₁ : Recognized s known g₁ :=
    ⟨recognized.named.survives (.of_framed derived.toFramed) sound₁,
      derived.snapshots conformed.typed.leafy _ transmits recognized.snapshots⟩
  refine ends.mono ?_ fun _ _ _ => trivial
  rintro _ g' ⟨-, merged, performs, rfl⟩
  rw [schema₁] at performs
  refine (recognized₁.performs accepted distinct F schema₁ sound₁ ?_ (Acts.ready_ofResults s _ _ [])
    (fun r met w of => Acts.complete_ofResults s met of) performs).sweep transmits (performs.sound sound₁).1
  -- The fields that formulas derive have no part in what is given of an identity.
  intro act member
  obtain ⟨e, listed, among⟩ := mem_flatMap.mp member
  rcases mem_append.mp among with stored | written
  · exact admits_of_tidy (Acts.tidy_ofField s e.2) (conforms e listed).1 g₁ act stored
  · cases mem_singleton.mp written
    obtain ⟨n, info, formula, live, there, contextual⟩ := derived.contextual shaped e listed
    refine Or.inr ⟨e.1.id, n, info, sound₁.toArena.find?_keyOf (derived.live e listed), live, there, fun _ => ?_⟩
    simp [contextual]

end merges

end Recognized

section run

variable {serial : Nat} {d : Declarations} {F : Formulas} {s : Schema}

theorem Recognized.settle (recognized : Recognized s known g) (compiled : Schema.compile serial d = .ok s)
    (distinct : Distinct s known) (conformed : Conformed F s known g) (shaped : Nodes Node.Shaped g)
    (unfailing : Unfailing F s known g (.settle F.contextual)) : Recognized s known ((Graph.settle F).after g) := by
  have accepted : s.Accepted := fun _ _ type => Schema.accepted_of_type? compiled type
  -- Every round starts from a graph like this one.
  have runs := @settle_runs F g
    (fun _ h => Conformed F s known h ∧ Formed h ∧ Recognized s known h)
    ⟨conformed, ⟨conformed.sound, shaped⟩, recognized⟩ fun h member _ held => ?_
  · refine runs.after (fun _ _ held => held.1.2.2) ?_
    rintro e g' (⟨-, _, held⟩ | ⟨h, member, -, failed⟩)
    · exact held.2.2
    · -- No round fails, by assumption.
      have succeeds : ((Graph.round F).run' h).isSome = true := unfailing.2 h member
      obtain ⟨diff, run⟩ := Option.isSome_iff_exists.mp succeeds
      rw [eq_ok_of_run' run] at failed
      cases failed
  · obtain ⟨conformed, formed, recognized⟩ := held
    have conforms := unfailing.1 h member
    exact ((conformed.round compiled distinct.types conforms).and (formed.round.and
      (recognized.round accepted distinct conformed formed.shaped conforms))).mono (fun _ _ kept => kept)
      fun _ _ _ => trivial

/-- Every operation of a run in which no round fails keeps it. -/
theorem Recognized.apply (recognized : Recognized s known g) (compiled : Schema.compile serial d = .ok s)
    (distinct : Distinct s known) (conformed : Conformed F s known g) (shaped : Nodes Node.Shaped g)
    (unfailing : Unfailing F s known g op) : Recognized s known (op.apply F g) := by
  have accepted : s.Accepted := fun _ _ type => Schema.accepted_of_type? compiled type
  have transmits := Transmits.recognizes accepted distinct F
  have sound := conformed.sound
  cases op with
  | absorb r parentRoot => exact recognized.absorb accepted distinct F conformed.schema_eq sound unfailing _
  | retain id => exact Operation.apply_retain recognized fun _ => recognized.holds transmits sound id (· + 1)
  | release id =>
    refine Operation.apply_release recognized fun _ => ?_
    have sound₁ := sound.holds id (· - 1)
    -- Without its last hold the node may be swept away.
    exact ((recognized.holds transmits sound id (· - 1)).pending transmits sound₁ _ _).sweep transmits
      (sound₁.quiet (.pending _ _ _ _))
  | build id =>
    exact Operation.apply_build sound recognized fun _ _ => recognized.built transmits sound conformed.typed.leafy
  | invalidate id => exact Operation.apply_invalidate recognized (recognized.touch transmits sound)
  | takePrevious id => exact recognized.quiet transmits sound (.takePrevious g id) (cached?_takePrevious g id)
  | settle contextual =>
    have conformed' := conformed.congr (F.withContextual contextual) rfl
    exact recognized.settle compiled distinct conformed' shaped unfailing

/-- Every graph of such a run has it. -/
theorem ReachableBy.recognized (compiled : Schema.compile serial d = .ok s) (distinct : Distinct s known)
    (reached : ReachableBy F s (Unfailing F s known) g) : Conformed F s known g ∧ Formed g ∧ Recognized s known g := by
  induction reached with
  | empty maxRounds =>
    exact ⟨.empty F known s maxRounds, ⟨.empty s maxRounds, fun id n live => by cases live⟩,
      fun id n live => (by cases live), fun id r found => (by cases found)⟩
  | apply _ op unfailing ih =>
    obtain ⟨conformed, formed, recognized⟩ := ih
    exact ⟨conformed.apply compiled distinct.types unfailing.conforming, formed.apply op,
      recognized.apply compiled distinct conformed formed.shaped unfailing⟩

end run

/-- Nodes whose identifying fields are neither derived nor able to link tell their entities. -/
theorem Named.told (named : Named s known g) (live : g.node? id = some n) (identifiable : n.layout.identifiable = true)
    (plainly : ∀ info ∈ n.layout.fields, info.identifying = true → info.derivation = none ∧ info.mayLink = false) :
    g.Told id := by
  -- A field that cannot link holds a plain value, so that the node names no other.
  have plain := (named id n live).1.plain plainly identifiable
  exact .intro live identifiable (plain.given fun info member identifying => (plainly info member identifying).1)
    (fun c name => absurd name (plain.not_names c)) fun c _ name => absurd name (plain.not_names c)

/-- In a run in which no round fails, whose derivations give values that their fields can hold, and whose records are
the schema's own with keys that tell identities apart: what a node that tells its entity builds to has the node's key,
and is found as this node. Nodes whose identifying fields are neither derived nor able to link are among those. -/
theorem ReachableBy.lookup_build {serial : Nat} {d : Declarations} {s : Schema} {F : Formulas}
    {known : Record → Prop} {g : Graph} (compiled : Schema.compile serial d = .ok s)
    (own : ∀ r, known r → s.ownsRecord r = true) (apart : KeysTellIdentities known)
    (reached : ReachableBy F s (Unfailing F s known) g) :
    (∀ id, g.Told id → ∃ r g', build F id g = .ok r g' ∧ r.key = g.keyOf id ∧ g'.lookup r = some id) ∧
    ∀ id n, g.node? id = some n → n.layout.identifiable = true →
      (∀ info ∈ n.layout.fields, info.identifying = true → info.derivation = none ∧ info.mayLink = false) →
      g.Told id := by
  have distinct : Distinct s known := ⟨own, apart⟩
  have accepted : s.Accepted := fun _ _ type => Schema.accepted_of_type? compiled type
  obtain ⟨conformed, -, recognized⟩ := reached.recognized compiled distinct
  refine ⟨fun id told => ?_, fun id n live => recognized.named.told live⟩
  obtain ⟨n, live, identifiable⟩ : ∃ n, g.node? id = some n ∧ n.layout.identifiable = true := by
    cases told with
    | intro live identifiable => exact ⟨_, live, identifiable⟩
  -- Building a live node succeeds and leaves its snapshot, which stands for the entity.
  have ends := conformed.sound.built F (contains_iff.mpr ⟨n, live⟩)
  unfold Ends at ends
  cases result : build F id g with
  | error e g' => rw [result] at ends; cases ends
  | ok r g' =>
    rw [result] at ends
    have sound' := conformed.sound.quiet ends.toQuiet
    have recognized' := recognized.built (.recognizes accepted distinct F) conformed.sound conformed.typed.leafy
      ends
    have stands := recognized'.stands ends.here ((ends.cores.sameBelow id).told told)
    rw [ends.cores.keyOf, show g.keyOf id = n.key by simp [keyOf, live]] at stands
    -- The record that stands for the entity has the key of the records that it was met with.
    obtain ⟨b, given, same, layout⟩ := (recognized.named id n live).1.entity
    have key : r.key = g.keyOf id := by
      rw [stands.key_eq distinct given same (by rw [layout]; exact identifiable)]
      simp [keyOf, live]
    refine ⟨r, g', rfl, key, ?_⟩
    -- Under its own key a live node is found.
    rw [lookup, key, ← ends.cores.keyOf]
    exact sound'.toArena.find?_keyOf (by rw [ends.cores.contains]; exact contains_iff.mpr ⟨n, live⟩)

section decidable

variable (F : Formulas) (s : Schema) (known : Record → Prop) [DecidablePred known]

instance (g : Graph) (op : Operation) : Decidable (Unfailing F s known g op) :=
  match op with
  | .absorb .. | .settle _ | .retain _ | .release _ | .build _ | .invalidate _ | .takePrevious _ => by
    dsimp only [Unfailing]
    infer_instance

end decidable

/-- Own records with the type and the text of identity of a listed one. -/
def Among (s : Schema) (records : List Record) (r : Record) : Prop :=
  s.ownsRecord r = true ∧ ∃ a ∈ records, a.typeName = r.typeName ∧ a.identityText = r.identityText

instance (s : Schema) (records : List Record) : DecidablePred (Among s records) :=
  fun r => inferInstanceAs (Decidable (s.ownsRecord r = true ∧
    ∃ a ∈ records, a.typeName = r.typeName ∧ a.identityText = r.identityText))

/-- Whether keys of such records tell identities apart can be computed. -/
theorem keysTellIdentities_among {s : Schema} {records : List Record}
    (apart : ∀ a ∈ records, ∀ b ∈ records, a.key = b.key → a.typeName = b.typeName ∧ a.identityText = b.identityText) :
    KeysTellIdentities (Among s records) := by
  rintro a b ⟨-, a', here, nameₐ, textₐ⟩ ⟨-, b', there, nameᵦ, textᵦ⟩ same
  -- The key is a hash of the text, so it is that of the listed record.
  obtain ⟨names, texts⟩ := apart a' here b' there (by
    rw [RecordOf.key, RecordOf.key, textₐ, textᵦ]
    exact same)
  have name : a.typeName = b.typeName := by rw [← nameₐ, ← nameᵦ, names]
  exact ⟨name, (RecordOf.identityText_eq_iff name).mp (by rw [← textₐ, ← textᵦ, texts])⟩

/-- A company knows its head. -/
def companyType : TypeDecl :=
  ⟨"Company", none, [⟨"name", .text, 1, true, false, none, []⟩, ⟨"head", .record "Person", 2, false, false, none, []⟩]⟩

/-- A person is known by a name and an employer. -/
def employeeType : TypeDecl :=
  ⟨"Person", none, [⟨"name", .text, 1, true, false, none, []⟩,
    ⟨"employer", .record "Company", 2, true, false, none, []⟩, ⟨"badge", .record "Badge", 3, false, false, none, []⟩]⟩

/-- A badge is known by its holder. -/
def badgeType : TypeDecl :=
  ⟨"Badge", none, [⟨"holder", .record "Person", 1, true, false, none, []⟩]⟩

def badgeDeclarations : Declarations :=
  ⟨[companyType, employeeType, badgeType], [], []⟩

def companyLayout : Layout :=
  badgeDeclarations.layout 0 [] companyType []

def employeeLayout : Layout :=
  badgeDeclarations.layout 0 [] employeeType []

def holderLayout : Layout :=
  badgeDeclarations.layout 0 [] badgeType []

def badgeSchema : Schema :=
  ⟨0, [companyLayout, employeeLayout, holderLayout], [], []⟩

theorem compile_badge : Schema.compile 0 badgeDeclarations = .ok badgeSchema := by decide +kernel

/-- A company with its head, or without one. -/
def company (head : Field Value) : Record :=
  ⟨companyLayout, [.value (.text "c"), head]⟩

/-- An employee with a badge, or without one. -/
def employee (badge : Field Value) : Record :=
  ⟨employeeLayout, [.value (.text "p"), .value (.record (company .absent)), badge]⟩

/-- The badge of an employee. -/
def badge : Record :=
  ⟨holderLayout, [.value (.record (employee .absent))]⟩

/-- The graph of a company whose head works there, settled. -/
def companyGraph : Graph :=
  (Operation.settle noFormulas.contextual).apply noFormulas
    ((Operation.absorb (company (.value (.record (employee .absent)))) none).apply noFormulas
      (Graph.empty badgeSchema defaultRounds))

/-- The graph where the snapshots were evicted, and the company was built again with the person below it. -/
def headGraph : Graph :=
  (Operation.build ⟨0, 0⟩).apply noFormulas ((Operation.invalidate ⟨1, 0⟩).apply noFormulas companyGraph)

/-- The person was built before the company, which links to the person and is named by the person. Still the person is
found by the snapshot. -/
theorem lookup_build_head : ∃ r g', build noFormulas ⟨1, 0⟩ headGraph = .ok r g' ∧
    r.key = (employee .absent).key ∧ g'.lookup r = some ⟨1, 0⟩ := by
  have reached : ReachableBy noFormulas badgeSchema
      (Unfailing noFormulas badgeSchema (Among badgeSchema [company .absent, employee .absent])) headGraph :=
    ((((ReachableBy.empty defaultRounds).apply (.absorb (company (.value (.record (employee .absent)))) none)
      (by decide +kernel)).apply (.settle _) (by decide +kernel)).apply (.invalidate ⟨1, 0⟩) trivial).apply
      (.build ⟨0, 0⟩) trivial
  have apart : KeysTellIdentities (Among badgeSchema [company .absent, employee .absent]) :=
    keysTellIdentities_among (by decide +kernel)
  have computed : headGraph.tells 2 ⟨1, 0⟩ = true ∧ headGraph.keyOf ⟨1, 0⟩ = (employee .absent).key := by
    decide +kernel
  have sound := (reached.recognized compile_badge ⟨fun _ known => known.1, apart⟩).1.sound
  obtain ⟨found, -⟩ := reached.lookup_build compile_badge (fun _ known => known.1) apart
  obtain ⟨r, g', built, key, here⟩ := found ⟨1, 0⟩ (sound.told_of_tells computed.1)
  exact ⟨r, g', built, key.trans computed.2, here⟩

/-- The graph of a person with a badge, where the person was built. -/
def badgeGraph : Graph :=
  (Operation.build ⟨0, 0⟩).apply noFormulas ((Operation.absorb (employee (.value (.record badge))) none).apply
    noFormulas (Graph.empty badgeSchema defaultRounds))

/-- The badge was built before its holder. What stands for the holder there lacks the employer, so that the snapshot of
the badge is not found as the badge. -/
theorem not_lookup_build : ¬ ∀ (serial : Nat) (d : Declarations) (s : Schema) (F : Formulas)
    (known : Record → Prop) (g : Graph) (id : NodeId) (n : Node), Schema.compile serial d = .ok s →
    (∀ r, known r → s.ownsRecord r = true) → KeysTellIdentities known →
    ReachableBy F s (Unfailing F s known) g → g.node? id = some n →
    n.layout.identifiable = true → ∃ r g', build F id g = .ok r g' ∧ g'.lookup r = some id := by
  intro claim
  have reached : ReachableBy noFormulas badgeSchema (Unfailing noFormulas badgeSchema
      (Among badgeSchema [company .absent, employee .absent, badge])) badgeGraph :=
    ((ReachableBy.empty defaultRounds).apply (.absorb (employee (.value (.record badge))) none)
      (by decide +kernel)).apply (.build ⟨0, 0⟩) trivial
  have computed : ((badgeGraph.node? ⟨2, 0⟩).map fun n => n.layout.identifiable) = some true ∧
      ((build noFormulas ⟨2, 0⟩).run' badgeGraph).map ((build noFormulas ⟨2, 0⟩).after badgeGraph).lookup =
        some none := by decide +kernel
  obtain ⟨live, lost⟩ := computed
  obtain ⟨n, there, identifiable⟩ := Option.map_eq_some_iff.mp live
  obtain ⟨r, g', built, found⟩ := claim 0 badgeDeclarations badgeSchema noFormulas _ badgeGraph ⟨2, 0⟩ n compile_badge
    (fun _ known => known.1) (keysTellIdentities_among (by decide +kernel)) reached there identifiable
  -- The record that is built is the one that was looked up.
  obtain ⟨r', run, missing⟩ := Option.map_eq_some_iff.mp lost
  rw [eq_ok_of_run' run] at built
  cases built
  rw [found] at missing
  cases missing

end Graph

end EntityGraph
