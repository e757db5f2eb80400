import EntityGraph.Proofs.Graph.Entities
import EntityGraph.Proofs.Graph.Queue

/-! Nodes become entities while their records are merged: a node that still lacks an identifying field is new, not held,
and nothing links to it. So a failure leaves none of them. -/

namespace EntityGraph

open List

variable {r : Record}

/-- A new node is a draft. -/
theorem Node.Draft.new {s : Schema} {known : Record → Prop} (distinct : Distinct s known) (given : known r)
    {layout : Layout} (type : s.type? r.typeName = some layout) (root : NodeId) (keys : NodeId → Key) :
    (Node.new layout r.key root).Draft s known keys := by
  obtain ⟨own, -⟩ := Schema.ownsRecord_iff.mp (distinct.own r given)
  have same : r.layout = layout := by
    rw [RecordOf.typeName, own] at type
    exact Option.some.inj type
  refine ⟨by rw [Node.new, Schema.name_of_type? type]; exact type, by simp [Node.new], ⟨r, given, rfl, same⟩,
    fun _ i info there _ _ => ⟨.absent, ?_, fun _ => ⟨.absent, rfl⟩, Or.inl rfl⟩⟩
  have inside := (List.getElem?_eq_some_iff.mp there).1
  exact getElem?_replicate_of_lt inside

namespace Graph

variable {g g' : Graph} {s : Schema} {known : Record → Prop} {act : Act} {n n' : Node} {c id : NodeId}

/-- What a node links to when something is done to it is live. -/
theorem Origin.links_live {j : NodeId} (origin : Origin g act j n) (sound : Sound g)
    (link : c ∈ n.links) : g.contains c = true := by
  have old : ∀ {m : Node}, g.node? j = some m → c ∈ m.links → g.contains c = true := fun live link =>
    sound.closed j c (by rwa [outgoing_of_live live])
  cases origin with
  | kept live => exact old live link
  | made =>
    rw [Node.links, Node.new, Stored.fieldLinks_replicate] at link
    cases link
  | @wrote w _ m incoming owner live image =>
    rcases Stored.mem_links_put link with before | added
    · exact old live before
    · obtain ⟨-, r, -, -, found⟩ := Write.links_image? g.schema image added
      obtain ⟨m', there, -⟩ := sound.toArena.of_find? found
      exact contains_iff.mpr ⟨m', there⟩

theorem Grows.keyOf (grows : Grows g g') (live : g.contains c = true) : g'.keyOf c = g.keyOf c := by
  obtain ⟨m, there⟩ := contains_iff.mp live
  obtain ⟨m', there', stays⟩ := grows.live c m there
  simp [Graph.keyOf, there, there', stays.key]

/-- All nodes are entities with all identifying fields. -/
def Named (s : Schema) (known : Record → Prop) (g : Graph) : Prop :=
  ∀ id n, g.node? id = some n → n.Draft s known g.keyOf ∧ n.Filled known

theorem Survives.keyOf (survives : Survives g g') (live : g'.contains c = true) : g'.keyOf c = g.keyOf c := by
  obtain ⟨n', live'⟩ := contains_iff.mp live
  obtain ⟨n, there, -, key, -⟩ := survives.nodes c n' live'
  simp [Graph.keyOf, there, live', key]

/-- A node that survives is a draft as it was, since what it links to survives. -/
theorem Survives.draft (survives : Survives g g') (sound' : Sound g') (live' : g'.node? id = some n')
    (draft : ∀ n, g.node? id = some n → n.Draft s known g.keyOf) : n'.Draft s known g'.keyOf := by
  obtain ⟨n, live, layout, key, fields⟩ := survives.nodes id n' live'
  refine (draft n live).congr layout key fields fun c link => survives.keyOf ?_
  exact sound'.closed id c (by rwa [outgoing_of_live live', Node.links, fields])

theorem Named.survives (named : Named s known g) (survives : Survives g g') (sound' : Sound g') : Named s known g' := by
  intro id n' live'
  obtain ⟨n, live, layout, key, fields⟩ := survives.nodes id n' live'
  exact ⟨survives.draft sound' live' fun n live => (named id n live).1, (named id n live).2.congr layout key fields⟩

theorem Named.entities (named : Named s known g) (owned : Nodes (Node.Owned s) g) :
    Nodes (Node.Entity s known) g := fun id n live =>
  ⟨owned id n live, ⟨_, (named id n live).1⟩, (named id n live).2⟩

/-- A node stays filled when something is done to it. -/
theorem Admits.keepsFilled (admits : Admits s known g act) (sound : Sound g) (does : Does g act g')
    (live : g.node? id = some n) (live' : g'.node? id = some n') (filled : n.Filled known) : n'.Filled known := by
  obtain ⟨m, origin, same⟩ := does.origin sound live'
  obtain ⟨layout, key, fields, -⟩ := same_of_lone same
  refine Node.Filled.congr ?_ layout key fields
  cases origin with
  | kept there =>
    rw [live] at there
    cases there
    exact filled
  | made _ _ dead =>
    rw [live] at dead
    cases dead
  | wrote owner there image =>
    rw [live] at there
    cases there
    exact admits.filled owner live image filled

/-- What holds while records are merged: what was written is there, and a node that lacks an identifying field is new,
not held, and nothing links to it. -/
structure Filling (s : Schema) (known : Record → Prop) (done : List Act) (g : Graph) : Prop where
  schema : g.schema = s
  drafts : ∀ id n, g.node? id = some n → n.Draft s known g.keyOf
  met : ∀ r, .meet r ∈ done → known r
  owned : ∀ w, .write w ∈ done → (g.find? w.key).isSome = true
  written : ∀ w, .write w ∈ done → w.field.isDeclared = true → ∀ id n info, g.node? id = some n → n.key = w.key →
    n.layout.fields[w.position]? = some info → info.identifying = true → info.derivation = none →
    n.fields[w.position]? ≠ some .absent
  waiting : ∀ id n, g.node? id = some n → ¬ n.Filled known →
    n.holds = 0 ∧ id ∈ g.created ∧ ∃ r, .meet r ∈ done ∧ r.key = n.key
  linked : ∀ p c n, c ∈ g.outgoing p → g.node? c = some n → n.Filled known

namespace Filling

variable {done : List Act}

theorem start (schema : g.schema = s) (named : Named s known g) : Filling s known [] g where
  schema := schema
  drafts id n live := (named id n live).1
  met := by simp
  owned := by simp
  written := by simp
  waiting id n live missing := absurd (named id n live).2 missing
  linked _ c n _ live := (named c n live).2

/-- The node of a record whose fields are all written lacks none. -/
theorem filled (filling : Filling s known done g) (distinct : Distinct s known) (met : .meet r ∈ done)
    (complete : ∀ w : Write, w.Of s r → .write w ∈ done) (live : g.node? id = some n)
    (key : n.key = r.key) : n.Filled known := by
  have draft := filling.drafts id n live
  obtain ⟨a, givenₐ, keyₐ, layoutₐ⟩ := draft.entity
  have given := filling.met r met
  have layout : r.layout = n.layout := (distinct.layout_eq given givenₐ (by rw [keyₐ, key])).trans layoutₐ
  refine ⟨r, given, key.symm, fun i info there identifying given' declared => ?_⟩
  obtain ⟨m, member⟩ := Option.ne_none_iff_exists'.mp declared
  obtain ⟨f, field, told⟩ := Option.bind_eq_some_iff.mp member
  have pure : info.isPure = false := by simp [FieldDecl.isPure, given']
  have written : f.isDeclared = true := by
    cases f with
    | absent => cases told
    | null => rfl
    | value v => rfl
  have described : (s.fieldsOf r.typeName)[i]? = some info := by
    rw [Schema.fieldsOf, RecordOf.typeName, layout, draft.layout]
    exact there
  exact filling.written _ (complete ⟨r.key, i, f, info.mayLink⟩ ⟨rfl, ⟨info, described, pure, rfl⟩, field, written⟩)
    written id n info live key there identifying given'

section Step

variable (filling : Filling s known done g) (distinct : Distinct s known) (sound : Sound g)
  (admits : Admits s known g act) (step : Does g act g')
  (ready : ∀ w, act = .write w → w.linking = true → Acts.ofField s w.field ⊆ done)

include filling sound admits step

include distinct ready in
/-- What is made or written is a draft, since what a link leads to was met before. -/
theorem draft_of_does (accepted : s.Accepted) (live' : g'.node? id = some n') : n'.Draft s known g'.keyOf := by
  obtain ⟨-, grows, -⟩ := (Performs.single step).sound sound
  obtain ⟨n, origin, same⟩ := step.origin sound live'
  obtain ⟨layout, key, fields, -⟩ := same_of_lone same
  refine Node.Draft.congr ?_ layout key fields fun c link => grows.keyOf (origin.links_live sound link)
  cases origin with
  | kept live => exact filling.drafts id n live
  | made type => exact .new distinct admits (filling.schema ▸ type) _ _
  | wrote owner live image =>
    obtain ⟨m, there, key⟩ := sound.toArena.of_find? owner
    rw [live] at there
    cases there
    refine admits.draft accepted distinct sound owner live key (fun linking act member => ?_) image
      (filling.drafts id _ live)
    have before := ready _ rfl linking member
    cases act with
    | meet r => exact filling.met r before
    | write _ => trivial

/-- What is written stays, as only another declared field replaces an identifying one. -/
theorem written_of_does {w : Write} {info : FieldInfo} (member : .write w ∈ done ++ [act])
    (declared : w.field.isDeclared = true) (live' : g'.node? id = some n') (key : n'.key = w.key)
    (there : n'.layout.fields[w.position]? = some info) (identifying : info.identifying = true)
    (given : info.derivation = none) : n'.fields[w.position]? ≠ some .absent := by
  intro missing
  obtain ⟨n, origin, same⟩ := step.origin sound live'
  obtain ⟨layout, key', fields, -⟩ := same_of_lone same
  rw [layout] at there
  rw [key'] at key
  rw [fields] at missing
  cases origin with
  | kept live other =>
    rcases mem_append.mp member with before | now
    · exact filling.written w before declared id n info live key there identifying given missing
    · refine other w (mem_singleton.mp now).symm ?_
      rw [← key]
      exact sound.toArena.find? live
  | @made r _ _ _ type fresh dead =>
    rcases mem_append.mp member with before | now
    · obtain ⟨j, found⟩ := Option.isSome_iff_exists.mp (filling.owned w before)
      change r.key = w.key at key
      rw [← key, fresh] at found
      cases found
    · cases mem_singleton.mp now
  | wrote owner live image =>
    rcases mem_append.mp member with before | now
    · exact filling.written w before declared id _ info live key there identifying given
        (admits.missing owner live image there identifying given missing)
    · cases mem_singleton.mp now
      exact (Stored.not_absent_put (Write.image?_ne_absent declared image) missing).1 rfl

/-- A node that lacks a field was waiting before, or is new. -/
theorem waiting_of_does (live' : g'.node? id = some n') (missing : ¬ n'.Filled known) :
    n'.holds = 0 ∧ id ∈ g'.created ∧ ∃ r, .meet r ∈ done ++ [act] ∧ r.key = n'.key := by
  obtain ⟨earlier, new, -⟩ := step.created sound
  obtain ⟨n, origin, same⟩ := step.origin sound live'
  obtain ⟨layout, key, fields, holds⟩ := same_of_lone same
  rw [holds, key]
  have waited : ∀ m, g.node? id = some m → m.key = n.key → m.holds = n.holds →
      n.holds = 0 ∧ id ∈ g'.created ∧ ∃ r, .meet r ∈ done ++ [act] ∧ r.key = n.key := by
    intro m live key holds
    obtain ⟨unheld, listed, r, member, key'⟩ := filling.waiting id m live fun filled =>
      missing (admits.keepsFilled sound step live live' filled)
    exact ⟨holds ▸ unheld, earlier id listed, r, mem_append_left _ member, key'.trans key⟩
  cases origin with
  | kept live => exact waited n live rfl rfl
  | @made r _ _ _ type fresh dead =>
    exact ⟨rfl, new id dead (contains_iff.mpr ⟨n', live'⟩), r, mem_append_right _ (by simp), rfl⟩
  | wrote owner live => exact waited _ live rfl rfl

include distinct ready in
/-- A link that was there leads to a node without gaps, and a new one to a node whose fields are written. -/
theorem linked_of_does {p : NodeId} (link : c ∈ g'.outgoing p) (live' : g'.node? c = some n') : n'.Filled known := by
  have linked : ∀ m, g.node? c = some m → m.Filled known → n'.Filled known :=
    fun m live filled => admits.keepsFilled sound step live live' filled
  have old : c ∈ g.outgoing p → n'.Filled known := by
    intro link
    obtain ⟨m, live⟩ := contains_iff.mp (sound.closed p c link)
    exact linked m live (filling.linked p c m link live)
  obtain ⟨q, here⟩ : ∃ q, g'.node? p = some q := by
    cases here : g'.node? p with
    | some q => exact ⟨q, rfl⟩
    | none => simp [outgoing, here] at link
  obtain ⟨q₀, origin, same⟩ := step.origin sound here
  obtain ⟨-, -, fields, -⟩ := same_of_lone same
  rw [outgoing_of_live here, Node.links, fields] at link
  cases origin with
  | kept live => exact old (by rw [outgoing_of_live live]; exact link)
  | made => simp [Node.new, Stored.fieldLinks_replicate] at link
  | @wrote w _ q₁ incoming owner live image =>
    rcases Stored.mem_links_put link with before | added
    · exact old (by rw [outgoing_of_live live]; exact before)
    · obtain ⟨linking, r, met, -, found⟩ := Write.links_image? s image added
      obtain ⟨m, there, key⟩ := sound.toArena.of_find? found
      have stored := ready w rfl linking
      exact linked m there (filling.filled distinct (stored met)
        (fun w' of => stored ((Acts.tidy_ofField s w.field).complete r met w' of)) there key)

include distinct ready in
/-- One thing more is done. -/
theorem does (accepted : s.Accepted) : Filling s known (done ++ [act]) g' := by
  obtain ⟨-, grows, finds⟩ := (Performs.single step).sound sound
  refine ⟨grows.schema.trans filling.schema, fun _ _ => filling.draft_of_does distinct sound admits step ready accepted,
    fun r member => ?_, fun w member => ?_, fun w member declared _ _ _ =>
      filling.written_of_does sound admits step member declared, fun _ _ => filling.waiting_of_does sound admits step,
    fun _ _ _ => filling.linked_of_does distinct sound admits step ready⟩
  · rcases mem_append.mp member with before | now
    · exact filling.met r before
    · cases mem_singleton.mp now
      exact admits
  · rcases mem_append.mp member with before | now
    · obtain ⟨id, found⟩ := Option.isSome_iff_exists.mp (filling.owned w before)
      rw [finds _ _ found]
      rfl
    · cases mem_singleton.mp now
      cases step with
      | wrote owner => rw [finds _ _ owner]; rfl

end Step

/-- All that is ready is done. -/
theorem performs (filling : Filling s known done g) (accepted : s.Accepted) (distinct : Distinct s known)
    (sound : Sound g) {acts : List Act} (admits : ∀ act ∈ acts, Admits s known g act)
    (ready : Acts.Ready s done acts) (performs : Performs acts g g') : Filling s known (done ++ acts) g' := by
  induction performs generalizing done with
  | nil => rwa [append_nil]
  | @cons act acts g g₁ g' first _ ih =>
    obtain ⟨sound₁, grows, finds⟩ := (Performs.single first).sound sound
    have filling₁ := filling.does distinct sound (admits act mem_cons_self) first ready.1 accepted
    rw [← singleton_append, ← append_assoc]
    exact ih filling₁ sound₁ (fun other member => (admits other (.tail _ member)).grows grows finds)
      ready.2

/-- Once the fields of all records are written, all nodes are entities. -/
theorem named_of_complete (filling : Filling s known done g) (distinct : Distinct s known)
    (complete : ∀ r, .meet r ∈ done → ∀ w : Write, w.Of s r → .write w ∈ done) : Named s known g := by
  intro id n live
  refine ⟨filling.drafts id n live, ?_⟩
  by_contra missing
  obtain ⟨-, -, r, met, key⟩ := filling.waiting id n live missing
  exact missing (filling.filled distinct met (complete r met) live key.symm)

/-- A sweep that starts with the new nodes leaves entities only. -/
theorem named_of_swept (filling : Filling s known done g) (sound : Sound g) :
    Named s known (sweep { g with created := [], orphans := g.created ++ g.orphans }) := by
  have sound₁ : Sound { g with created := [], orphans := g.created ++ g.orphans } := sound.quiet (.pending _ _ _ _)
  have swept := sound₁.sweep
  intro id n' live'
  have survives := Survives.of_swept swept
  refine ⟨survives.draft swept.sound live' fun n live => filling.drafts id n live, ?_⟩
  obtain ⟨n, live, layout, key, fields⟩ := survives.nodes id n' live'
  refine Node.Filled.congr ?_ layout key fields
  -- A node that still waits is garbage among the orphans.
  by_contra missing
  have kept := ((swept.contains_iff id).mp (contains_iff.mpr ⟨n', live'⟩)).2
  obtain ⟨unheld, listed, -⟩ := filling.waiting id n live missing
  refine kept (.of_garbage sound₁ (mem_append_left _ listed) (sound₁.isGarbage_iff.mpr ⟨n, live, unheld, ?_⟩))
  exact fun p _ link => missing (filling.linked p id n link live)

end Filling

end Graph

end EntityGraph
