import EntityGraph.Proofs.Graph.Failure
import EntityGraph.Proofs.Graph.Owed
import EntityGraph.Proofs.Graph.Results
import Mathlib.Data.Fintype.Card
import Mathlib.Data.Set.Finite.Basic
import Mathlib.Order.WellFounded

/-! What a failure leaves of the nodes that it made: something that was there leads to them, or a cycle of new nodes, or
they are what the round that failed did not finish. -/

namespace EntityGraph

open List

variable {w : Write} {key : Key}

/-- Whatever the write is stored as links to the node that it reaches. -/
theorem Write.IsIn.links {find : Key → Option NodeId} {f : Field Stored} (isIn : w.IsIn find f)
    (links : w.LinksTo key) {id : NodeId} (found : find key = some id) : id ∈ Stored.fieldLinks [f] := by
  obtain ⟨s, image, same⟩ := isIn
  have linked := links.reaches find s id image found
  rcases same with rfl | alike
  · exact linked
  -- A field that was kept since it holds the same has the same links.
  · rw [Stored.fieldLinks_eq_of_same [f] [s] alike]
    exact linked

namespace Graph

open Relation Step

variable {g g' : Graph} {acts : List Act} {j x : NodeId} {r : Record} {whole : List Act}

theorem Sound.ne_of_keys (sound : Sound g) {a b : Key} {i : NodeId} (first : g.find? a = some i)
    (second : g.find? b = some j) (other : a ≠ b) : i ≠ j := by
  rintro rfl
  obtain ⟨n, live, key⟩ := sound.toArena.of_find? first
  obtain ⟨n', live', key'⟩ := sound.toArena.of_find? second
  rw [live] at live'
  cases live'
  exact other (key.symm.trans key')

/-- A record that is met is found from then on. -/
theorem Does.find? (does : Does g (.meet r) g') (sound : Sound g) : ∃ id, g'.find? r.key = some id := by
  have sound' := ((Performs.single does).sound sound).1
  cases does with
  | found _ found => exact ⟨_, found⟩
  | @made _ layout parentRoot id g₁ type fresh made =>
    have here := (sound.toArena.node?_create made).2 id
    rw [if_pos rfl] at here
    obtain ⟨n, live, core⟩ := (Quiet.touch { g₁ with created := id :: g₁.created } id).cores.exists_live here
    have key : n.key = r.key := by simpa [Node.core, Node.new] using congrArg Node.key core
    exact ⟨id, key ▸ sound'.toArena.find? live⟩

/-- The writes among the acts find a field to write in every node, now and while the acts are done. -/
structure Roomy (acts : List Act) (g : Graph) : Prop where
  -- The nodes that are made meanwhile need the other two parts.
  nodes : Nodes (fun n => ∀ w, .write w ∈ acts → w.key = n.key → w.position < n.fields.length) g
  sourced : ∀ w, .write w ∈ acts → (∃ r, .meet r ∈ acts ∧ w.Of g.schema r) ∨ ∃ id, g.find? w.key = some id
  apart : KeysTellTypes fun r => .meet r ∈ acts

theorem Roomy.does {act : Act} (roomy : Roomy acts g) (sound : Sound g) (does : Does g act g') (member : act ∈ acts) :
    Roomy acts g' := by
  obtain ⟨-, grows, finds⟩ := (Performs.single does).sound sound
  refine ⟨Nodes.does ⟨fun _ _ held => held, fun _ _ held => held, fun _ held => held⟩ sound (fun j n origin => ?_) does,
    fun w listed => ?_, roomy.apart⟩
  · intro w listed key
    cases origin with
    | kept live => exact roomy.nodes j n live w listed key
    | wrote _ live => rw [Stored.length_put]; exact roomy.nodes j _ live w listed key
    | @made r layout _ _ type fresh _ =>
      -- The write is of a record with the key of the new node, and so of its type.
      rcases roomy.sourced w listed with ⟨r', met, of⟩ | ⟨id, found⟩
      · obtain ⟨info, there, -⟩ := of.info
        rw [roomy.apart r' r met member (of.key.symm.trans key), Schema.fieldsOf, type] at there
        simpa [Node.new] using (List.getElem?_eq_some_iff.mp there).1
      · rw [show w.key = r.key from key, fresh] at found
        cases found
  · rw [grows.schema]
    exact (roomy.sourced w listed).imp_right fun found => found.imp fun id there => finds _ _ there

/-- A write that links to a node makes a sweep meet the node. -/
theorem Roomy.met_of_write (roomy : Roomy whole g) (sound : Sound g) (performs : Performs acts g g')
    (among : acts ⊆ whole) (member : .write w ∈ acts) (links : w.LinksTo key)
    (found : g.find? key = some j) : g'.Met j := by
  induction performs with
  | nil => cases member
  | @cons act acts g g₁ g' does others ih =>
    obtain ⟨sound₁, -, finds⟩ := (Performs.single does).sound sound
    have listed : act ∈ whole := among mem_cons_self
    rcases mem_cons.mp member with rfl | later
    · -- Once met, the node stays so whatever follows.
      refine Met.performs others sound₁ ?_
      cases does with
      | @wrote _ id incoming _ owner image set =>
        -- The field is there, and holds the link afterwards.
        obtain ⟨n, live, named⟩ := sound.toArena.of_find? owner
        have inside := roomy.nodes id n live w listed named.symm
        obtain ⟨n', f, live', field, written⟩ := (Does.wrote owner image set).field sound owner live
          (getElem?_eq_getElem inside)
        have last : Acts.lastWrite? w.key w.position [.write w] = some w := by simp [Acts.lastWrite?]
        rw [last] at written
        rcases written with ⟨none, -⟩ | ⟨w', same, isIn⟩
        · cases none
        · cases same
          refine Or.inr ⟨id, sound.ne_of_keys owner found links.other, ?_⟩
          rw [outgoing_of_live live']
          exact mem_links_of_field field (isIn.links links found)
    · exact ih (roomy.does sound does listed) sound₁ (fun _ there => among (.tail _ there)) later
        (finds _ _ found)

/-- Acts that owe each record a link leave no new node that a sweep does not meet. -/
theorem Roomy.met_of_owed (roomy : Roomy whole g) (sound : Sound g) (performs : Performs acts g g')
    (among : acts ⊆ whole) {known : Key → Prop} (owed : Acts.Owed known [] acts)
    (found : ∀ key, known key → ∃ id, g.find? key = some id) (dead : g.node? j = none)
    (live : g'.contains j = true) : g'.Met j := by
  induction performs generalizing known with
  | nil =>
    rw [contains, dead] at live
    cases live
  | @cons act acts g g₁ g' does others ih =>
    obtain ⟨sound₁, -, finds⟩ := (Performs.single does).sound sound
    have roomy₁ := roomy.does sound does (among mem_cons_self)
    have among₁ : acts ⊆ whole := fun _ there => among (.tail _ there)
    have found₁ : ∀ key, known key → ∃ id, g₁.find? key = some id := fun key given =>
      (found key given).imp fun id there => finds key id there
    cases first : g₁.node? j with
    | none =>
      -- It is made later.
      cases act with
      | meet r =>
        refine ih roomy₁ sound₁ among₁ owed.2 (fun key given => ?_) first live
        rcases given with old | rfl
        · exact found₁ key old
        · exact does.find? sound
      | write w => exact ih roomy₁ sound₁ among₁ owed found₁ first live
    | some n₁ =>
      obtain ⟨n, origin, same⟩ := does.origin sound first
      cases origin with
      | kept there => rw [dead] at there; cases there
      | wrote _ there => rw [dead] at there; cases there
      | @made r _ _ _ _ fresh _ =>
        -- It is the node of a record that no node was known for, so that a link is owed.
        have key : n₁.key = r.key := (same_of_lone same).2.1
        rcases owed.1 r.key rfl with old | ⟨w, member, links⟩
        · obtain ⟨id, there⟩ := found _ old
          rw [fresh] at there
          cases there
        · rw [append_nil] at member
          exact roomy₁.met_of_write sound₁ others among₁ member links (key ▸ sound₁.toArena.find? first)

/-- The keys of records that are met tell types apart, also from those of the nodes that there are. -/
def KeysMatch (g : Graph) (acts : List Act) : Prop :=
  ∀ act ∈ acts, act.Knows fun r =>
    (∀ id ∈ g.find? r.key, ∀ n ∈ g.node? id, g.schema.type? r.typeName = some n.layout) ∧
      ∀ act' ∈ acts, act'.Knows fun r' => r'.key = r.key → r'.typeName = r.typeName

instance (g : Graph) (acts : List Act) : Decidable (g.KeysMatch acts) :=
  inferInstanceAs (Decidable (∀ act ∈ acts, act.Knows _))

/-- What a round stores. -/
def stores (F : Formulas) (g : Graph) : List Act :=
  Acts.ofResults g.schema g.keyOf (derivedAt F g)

/-- Building nodes changes neither keys nor types. -/
theorem KeysMatch.quiet (keys : g.KeysMatch acts) (quiet : Quiet g g') : g'.KeysMatch acts := by
  intro act member
  have before := keys act member
  cases act with
  | write w => trivial
  | meet r =>
    refine ⟨fun id found n' live => ?_, before.2⟩
    obtain ⟨n, there, core⟩ := quiet.cores.symm.exists_live live
    rw [quiet.schema, ← (Node.Stays.of_core core).layout]
    exact before.1 id (by rw [find?, ← quiet.index]; exact found) n there

/-- The results that a round derives are stored in fields that are there. -/
theorem Derived.roomy {F : Formulas} {g₁ : Graph} {diff : Diff} {results : List (Task × Field Value)}
    (derived : Derived F g diff results g₁) (formed : Formed g) (formed₁ : Formed g₁)
    (keys : g₁.KeysMatch (Acts.ofResults g₁.schema g₁.keyOf results)) :
    Roomy (Acts.ofResults g₁.schema g₁.keyOf results) g₁ := by
  -- A write is one of a record that is met, or one of a result.
  have source : ∀ w, .write w ∈ Acts.ofResults g₁.schema g₁.keyOf results →
      (∃ r, .meet r ∈ Acts.ofResults g₁.schema g₁.keyOf results ∧ w.Of g₁.schema r) ∨
        ∃ e ∈ results, w.key = g₁.keyOf e.1.id ∧ w.position = e.1.field := by
    intro w listed
    obtain ⟨e, member, among⟩ := mem_flatMap.mp listed
    rcases mem_append.mp among with inner | own
    · obtain ⟨r, met, of⟩ := (Acts.tidy_ofField g₁.schema e.2).sourced w inner
      exact Or.inl ⟨r, mem_flatMap.mpr ⟨e, member, mem_append_left _ met⟩, of⟩
    · cases mem_singleton.mp own
      exact Or.inr ⟨e, member, rfl, rfl⟩
  refine ⟨fun id n live w listed key => ?_, fun w listed => ?_, fun r r' met met' same => ?_⟩
  · rw [(formed₁.shaped id n live).length]
    rcases source w listed with ⟨r, met, of⟩ | ⟨e, member, owner, position⟩
    · -- The node has the type of the record.
      have found : g₁.find? r.key = some id := by
        rw [← of.key, key]
        exact formed₁.sound.toArena.find? live
      have type : g₁.schema.type? r.typeName = some n.layout := (keys _ met).1 id found n live
      obtain ⟨info, there, -⟩ := of.info
      rw [Schema.fieldsOf, type] at there
      exact (List.getElem?_eq_some_iff.mp there).1
    · -- The node is the one that the result was derived for, and the field is contextual.
      have here := formed₁.sound.toArena.find?_keyOf (derived.live e member)
      rw [← owner, key, formed₁.sound.toArena.find? live] at here
      cases here
      obtain ⟨m, info, formula, there, field, -⟩ := derived.contextual formed.shaped e member
      rw [live] at there
      cases there
      rw [position]
      exact (List.getElem?_eq_some_iff.mp field).1
  · rcases source w listed with met | ⟨e, member, owner, -⟩
    · exact Or.inl met
    · exact Or.inr ⟨e.1.id, by rw [owner]; exact formed₁.sound.toArena.find?_keyOf (derived.live e member)⟩
  · exact (keys _ met').2 _ met same

/-- Every node that only the second graph has is not held, and another node links to it. -/
structure Anchored (g h : Graph) : Prop where
  formed : Formed h
  unheld : ∀ x n, h.node? x = some n → g.contains x = false → n.holds = 0
  -- A link of the node to itself does not count, since a sweep does not count it either.
  linked : ∀ x, h.contains x = true → g.contains x = false → ∃ p, p ≠ x ∧ x ∈ h.outgoing p

namespace Anchored

variable {h h' : Graph} {F : Formulas}

theorem refl (formed : Formed g) : Anchored g g where
  formed := formed
  unheld x n live new := by
    rw [contains, live] at new
    cases new
  linked x live new := by
    rw [live] at new
    cases new

/-- A sweep that meets all new nodes leaves those that another node links to. -/
theorem of_swept (formed : Formed h) (swept : Swept h h')
    (unheld : ∀ x n, h.node? x = some n → g.contains x = false → n.holds = 0)
    (met : ∀ x, h.contains x = true → g.contains x = false → h.Met x) : Anchored g h' := by
  have still : ∀ x n, h'.node? x = some n → g.contains x = false → h.contains x = true ∧ n.holds = 0 := by
    intro x n live new
    obtain ⟨there, kept⟩ := (swept.contains_iff x).mp (contains_iff.mpr ⟨n, live⟩)
    have lone := swept.kept x kept
    rw [live, Option.map_some, eq_comm, Option.map_eq_some_iff] at lone
    obtain ⟨m, before, same⟩ := lone
    have holds : m.holds = n.holds := by simpa [Node.lone] using congrArg Node.holds same
    exact ⟨there, holds ▸ unheld x m before new⟩
  refine ⟨⟨swept.sound, formed.shaped.swept Node.Shaped.loose swept⟩, fun x n live new => (still x n live new).2,
    fun x live new => ?_⟩
  obtain ⟨n, found⟩ := contains_iff.mp live
  obtain ⟨there, zero⟩ := still x n found new
  exact swept.linked found zero (met x there new)

/-- Building nodes changes nothing about it. -/
theorem quiet (anchored : Anchored g h) (quiet : Quiet h h') (formed : Formed h') : Anchored g h' where
  formed := formed
  unheld x n' live new := by
    obtain ⟨n, before, core⟩ := quiet.cores.symm.exists_live live
    exact (Node.Stays.of_core core).holds ▸ anchored.unheld x n before new
  linked x live new := by
    rw [quiet.cores.contains] at live
    obtain ⟨p, other, link⟩ := anchored.linked x live new
    exact ⟨p, other, by rw [quiet.cores.outgoing]; exact link⟩

/-- What acts leave: new nodes are not held, and those that were there before the acts are met by a sweep. -/
theorem performs (anchored : Anchored g h) (performs : Performs acts h h') :
    (∀ x n, h'.node? x = some n → g.contains x = false → n.holds = 0) ∧
      ∀ x, h'.contains x = true → g.contains x = false → h.node? x = none ∨ h'.Met x := by
  have sound := anchored.formed.sound
  refine ⟨fun x n' live new => ?_, fun x live new => ?_⟩
  · cases before : h.node? x with
    | none => exact performs.unheld sound before live
    | some n =>
      obtain ⟨m, live', stays⟩ := (performs.sound sound).2.1.live x n before
      rw [live] at live'
      cases live'
      exact stays.holds.trans (anchored.unheld x n before new)
  · cases before : h.node? x with
    | none => exact Or.inl rfl
    | some n =>
      have linked := anchored.linked x (contains_iff.mpr ⟨n, before⟩) new
      exact Or.inr (Met.performs performs sound (Or.inr linked))

/-- A round leaves new nodes that others link to. If it fails, those that it did not make are at least met by a
sweep. -/
theorem round (anchored : Anchored g h) (keys : h.KeysMatch (stores F h)) :
    Ends (Graph.round F) h (fun _ h' => Anchored g h') fun _ h' => Sound h' ∧
      ∀ x, h'.contains x = true → g.contains x = false → h.contains x = false ∨ h'.Met x := by
  obtain ⟨diff, h₁, derived, sound₁, ends⟩ := anchored.formed.sound.round_parts F
  have formed₁ : Formed h₁ :=
    ⟨sound₁, derived.lasting _ (Node.Shaped.lasting F) anchored.formed.shaped⟩
  have anchored₁ := anchored.quiet derived.toQuiet formed₁
  have same : stores F h = Acts.ofResults h₁.schema h₁.keyOf (derivedAt F h) := by
    have keyOf : h₁.keyOf = h.keyOf := by
      funext id
      rw [Graph.keyOf, derived.cores.map Node.key fun _ => rfl]
      rfl
    rw [stores, derived.schema, keyOf]
  have dead : ∀ x, h₁.node? x = none → h.contains x = false := by
    intro x none
    rw [← derived.cores.contains, contains, none]
    rfl
  refine ends.mono ?_ ?_
  · rintro _ h' ⟨-, merged, performs, rfl⟩
    have formed' := formed₁.performs performs
    obtain ⟨unheld, met⟩ := anchored₁.performs performs
    refine of_swept formed' formed'.sound.sweep unheld fun x live new => ?_
    rcases met x live new with made | met
    · -- A node that this round made was owed a link.
      have roomy := derived.roomy anchored.formed formed₁ (same ▸ keys.quiet derived.toQuiet)
      have owed : Acts.Owed (fun key => ∃ id, h₁.find? key = some id) []
          (Acts.ofResults h₁.schema h₁.keyOf (derivedAt F h)) :=
        Acts.owed_ofResults h₁.schema fun e member =>
          ⟨e.1.id, sound₁.toArena.find?_keyOf (derived.live e member)⟩
      exact roomy.met_of_owed sound₁ performs (List.Subset.refl _) owed (fun _ known => known) made live
    · exact met
  · -- A round that fails does not sweep, and what it made may not be linked yet.
    rintro _ h' ⟨-, done, -, performs⟩
    refine ⟨(performs.sound sound₁).1, fun x live new => ?_⟩
    exact ((anchored₁.performs performs).2 x live new).imp_left (dead x)

end Anchored

/-- One new node links to another. -/
def NewLeads (g g' : Graph) (p c : NodeId) : Prop :=
  p ≠ c ∧ g'.Leads p c ∧ g.contains p = false ∧ g.contains c = false

/-- If every new node but some odd ones is linked to by another node, then something old leads to each new node, or a
cycle of new nodes does, or an odd one. -/
theorem Sound.lead (sound : Sound g') (odd : NodeId → Prop)
    (linked : ∀ x, g'.contains x = true → g.contains x = false → odd x ∨ ∃ p, p ≠ x ∧ x ∈ g'.outgoing p)
    (live : g'.contains x = true) :
    ∃ y, ReflTransGen g'.Leads y x ∧ (g.contains y = true ∨ TransGen (NewLeads g g') y y ∨ odd y) := by
  by_contra none
  simp only [not_exists, not_and, not_or, Bool.not_eq_true] at none
  -- Without a cycle, one of the finitely many nodes that lead to the given one comes before all others.
  have finite : Finite { y // ReflTransGen g'.Leads y x } := by
    refine Set.Finite.subset (finite_toSet (g'.ancestors x)) fun y leads => ?_
    exact (sound.mem_ancestors live y).mpr leads
  let before : { y // ReflTransGen g'.Leads y x } → { y // ReflTransGen g'.Leads y x } → Prop :=
    fun a b => TransGen (NewLeads g g') a b
  have trans : IsTrans _ before := ⟨fun _ _ _ first second => first.trans second⟩
  have irrefl : Std.Irrefl before := ⟨fun a cycle => (none a.1 a.2).2.1 cycle⟩
  obtain ⟨⟨y, leads⟩, -, least⟩ := (Finite.wellFounded_of_trans_of_irrefl before).has_min Set.univ
    ⟨⟨x, .refl⟩, trivial⟩
  obtain ⟨new, -, even⟩ := none y leads
  -- But another node links to that one.
  obtain ⟨p, other, link⟩ := (linked y (Graph.live_of_leads leads live) new).resolve_left even
  have leads' : ReflTransGen g'.Leads p x := .head link leads
  exact least ⟨p, leads'⟩ trivial (.single ⟨other, link, (none p leads').1, new⟩)

/-- An absorption that fails leaves new nodes that others link to. -/
theorem Reachable.anchored_absorb {F : Formulas} {s : Schema} (reached : Reachable F s g)
    {parentRoot : Option NodeId} {e : GraphError} (failed : absorb r parentRoot g = .error e g') : Anchored g g' := by
  have sound := reached.sound
  obtain ⟨done, merged, -, -, performs, swept⟩ := sound.of_failed_absorb failed
  obtain ⟨-, new, -⟩ := performs.created sound
  have dead : ∀ x, g.contains x = false → g.node? x = none := by simp [contains]
  refine .of_swept ((reached.formed.performs performs).pending _ _ _) swept (fun x n live fresh => ?_)
    fun x live fresh => ?_
  · exact performs.unheld sound (dead x fresh) live
  · -- All of them are queued.
    exact Or.inl (mem_append_left _ (new x (dead x fresh) live))

/-- What a failure leaves that was not there. After a failed absorption an old node or a cycle of new nodes leads to
every new node. So it is after a failure to settle, if keys tell types apart in its rounds, unless a round refused a
record: then new nodes may be left that this round made, or that it took the last link from. -/
theorem Reachable.failure_leaves_led {F : Formulas} {s : Schema} {g : Graph}
    (reached : Reachable F s g) :
    (∀ r parentRoot e g', absorb r parentRoot g = .error e g' → ∀ x, g'.contains x = true → g.contains x = false →
      ∃ y, ReflTransGen g'.Leads y x ∧ (g.contains y = true ∨ TransGen (NewLeads g g') y y)) ∧
    ((∀ h ∈ roundStarts F g.maxRounds g, h.KeysMatch (stores F h)) →
      ∀ e g', settle F g = .error e g' → ∀ x, g'.contains x = true → g.contains x = false →
        ∃ y, ReflTransGen g'.Leads y x ∧ (g.contains y = true ∨ TransGen (NewLeads g g') y y ∨
          e.Refuses ∧ ∃ h ∈ roundStarts F g.maxRounds g, round F h = .error e g' ∧
            (h.contains y = false ∨ y ∈ g'.orphans))) := by
  refine ⟨fun r parentRoot e g' failed x live _ => ?_, fun keys e g' failed x live _ => ?_⟩
  · have anchored := reached.anchored_absorb failed
    obtain ⟨y, leads, kind⟩ := anchored.formed.sound.lead (fun _ => False)
      (fun x live new => Or.inr (anchored.linked x live new)) live
    exact ⟨y, leads, by simpa using kind⟩
  · have ends := @settle_runs F g (fun _ h => Anchored g h) (.refl reached.formed) fun h member _ anchored =>
      (anchored.round (keys h member)).mono (fun _ _ done => done) fun _ _ _ => trivial
    rw [Ends, failed] at ends
    rcases ends with ⟨-, -, anchored⟩ | ⟨h, member, ⟨-, anchored⟩, result⟩
    · -- After the last round every new node is linked.
      obtain ⟨y, leads, kind⟩ := anchored.formed.sound.lead (fun _ => False)
        (fun x live new => Or.inr (anchored.linked x live new)) live
      exact ⟨y, leads, kind.imp_right fun cycle => Or.inl (by simpa using cycle)⟩
    · -- A round failed, so its own nodes and those that it queued are the odd ones.
      have left := anchored.round (keys h member)
      have refuses := anchored.formed.sound.round F
      rw [Ends, result] at left refuses
      obtain ⟨y, leads, kind⟩ := left.1.lead (fun y => h.contains y = false ∨ y ∈ g'.orphans)
        (fun x live new => (left.2 x live new).elim (fun made => Or.inl (Or.inl made))
          fun met => met.imp_left Or.inr) live
      exact ⟨y, leads, kind.imp_right (Or.imp_right fun odd => ⟨refuses.2, h, member, result, odd⟩)⟩

/-- Shelves have boxes, or whatever else a formula gives them. -/
def shelfType : TypeDecl :=
  ⟨"Shelf", none, [⟨"id", .text, 1, true, false, none, []⟩,
    ⟨"boxes", .list (.openType "Any"), 2, false, false, some (.contextual "boxes"), []⟩]⟩

def shelfDeclarations : Declarations :=
  { boxDeclarations with types := [boxType, shelfType] }

def shelfLayout : Layout :=
  shelfDeclarations.layout 0 [] shelfType []

def shelfSchema : Schema :=
  { boxSchema with types := [boxLayout, shelfLayout] }

theorem compile_shelf : Schema.compile 0 shelfDeclarations = .ok shelfSchema := by decide +kernel

/-- Formulas that put the given things on every shelf. -/
def shelving (things : List Value) : Formulas :=
  ⟨fun _ _ => .absent, fun _ _ => .value (.list (things.map some))⟩

/-- The graph of one shelf, which settles in a number of rounds at most. -/
def shelfGraph (maxRounds : Nat) : Graph :=
  (absorb ⟨shelfLayout, [.value (.text "s"), .absent]⟩ none).after (Graph.empty shelfSchema maxRounds)

theorem reachable_shelfGraph (F : Formulas) (maxRounds : Nat) : Reachable F shelfSchema (shelfGraph maxRounds) :=
  (Reachable.empty maxRounds).apply (.absorb _ none)

/-- A box on a shelf. -/
def shelved : Value :=
  .record (box "p" .absent .absent)

/-- A box that leads to a cycle of two others, with a stranger in it. -/
def entangled : Record :=
  box "t" (.value (.record (box "a" (.value (.record
    (box "b" (.value (.record (box "a" .absent .absent))) .absent))) .absent))) (.value stranger)

theorem absorb_entangled : ∃ g', absorb entangled none (Graph.empty shelfSchema 1) =
    .error (.unknownType "Stranger") g' ∧ g'.contains ⟨1, 0⟩ = true := by
  have failure : (absorb entangled none).failure? (Graph.empty shelfSchema 1) = some (.unknownType "Stranger") := by
    decide +kernel
  exact ⟨_, Step.eq_error_of_failure? failure, by decide +kernel⟩

/-- A cycle leads to what the entangled box left when it failed. Where rounds run out, the shelf leads to the box on it,
or new nodes are in a cycle. -/
theorem failure_leaves_led_box :
    (∃ g', absorb entangled none (Graph.empty shelfSchema 1) = .error (.unknownType "Stranger") g' ∧
      ∃ y, ReflTransGen g'.Leads y ⟨1, 0⟩ ∧ TransGen (NewLeads (Graph.empty shelfSchema 1) g') y y) ∧
    ∃ g', settle (shelving [shelved]) (shelfGraph 1) = .error (.unsettled 1) g' ∧
      ∃ y, ReflTransGen g'.Leads y ⟨1, 0⟩ ∧
        ((shelfGraph 1).contains y = true ∨ TransGen (NewLeads (shelfGraph 1) g') y y) := by
  constructor
  · obtain ⟨g', failed, live⟩ := absorb_entangled
    have reached : Reachable noFormulas shelfSchema (Graph.empty shelfSchema 1) := .empty 1
    obtain ⟨y, leads, kind⟩ := (Reachable.failure_leaves_led reached).1 _ _ _ g' failed ⟨1, 0⟩ live rfl
    -- The empty graph has no node that could lead there.
    refine ⟨g', failed, y, leads, kind.resolve_left fun old => ?_⟩
    rw [contains, node?_empty] at old
    cases old
  · have failure : (settle (shelving [shelved])).failure? (shelfGraph 1) = some (.unsettled 1) := by decide +kernel
    have failed := Step.eq_error_of_failure? failure
    have keys : ∀ h ∈ roundStarts (shelving [shelved]) (shelfGraph 1).maxRounds (shelfGraph 1),
        h.KeysMatch (stores (shelving [shelved]) h) := by decide +kernel
    obtain ⟨y, leads, kind⟩ := (Reachable.failure_leaves_led (reachable_shelfGraph _ 1)).2 keys _ _ failed ⟨1, 0⟩
      (by decide +kernel) (by decide +kernel)
    refine ⟨_, failed, y, leads, kind.imp_right fun other => other.resolve_right ?_⟩
    exact fun unfinished => unfinished.1

theorem eq_of_leads {y : NodeId} (alone : ∀ p, p ≠ x → x ∉ g.outgoing p) (leads : ReflTransGen g.Leads y x) :
    y = x := by
  induction leads using ReflTransGen.head_induction_on with
  | refl => rfl
  | head link _ same =>
    subst same
    by_contra other
    exact alone _ other link

/-- Neither a failed absorption nor a failure to settle leaves only new nodes that something old leads to. -/
theorem not_failure_leaves_led :
    (¬ ∀ (serial : Nat) (d : Declarations) (s : Schema) (F : Formulas) (g g' : Graph)
      (r : Record) (parentRoot : Option NodeId) (e : GraphError), Schema.compile serial d = .ok s →
      Reachable F s g → absorb r parentRoot g = .error e g' →
      ∀ x, g'.contains x = true → g.contains x = false → ∃ y, ReflTransGen g'.Leads y x ∧ g.contains y = true) ∧
    ¬ ∀ (serial : Nat) (d : Declarations) (s : Schema) (F : Formulas) (g g' : Graph)
      (e : GraphError), Schema.compile serial d = .ok s → Reachable F s g →
      settle F g = .error e g' →
      ∀ x, g'.contains x = true → g.contains x = false → ∃ y, ReflTransGen g'.Leads y x ∧ g.contains y = true := by
  constructor
  · intro led
    obtain ⟨g', failed, live⟩ := absorb_entangled
    obtain ⟨y, -, old⟩ := led 0 shelfDeclarations shelfSchema noFormulas (Graph.empty shelfSchema 1) g' _ none _
      compile_shelf (.empty 1) failed ⟨1, 0⟩ live rfl
    rw [contains, node?_empty] at old
    cases old
  · intro led
    -- The box is made before the stranger is refused, and the shelf never gets it.
    have failure : (settle (shelving [shelved, stranger])).failure? (shelfGraph 1) =
        some (.unknownType "Stranger") := by decide +kernel
    have failed := Step.eq_error_of_failure? failure
    have reached : Reachable (shelving [shelved, stranger]) shelfSchema (shelfGraph 1) := reachable_shelfGraph _ 1
    obtain ⟨y, leads, old⟩ := led 0 shelfDeclarations shelfSchema (shelving [shelved, stranger]) (shelfGraph 1) _ _
      compile_shelf reached failed ⟨1, 0⟩ (by decide +kernel) (by decide +kernel)
    have garbage : ((settle (shelving [shelved, stranger])).after (shelfGraph 1)).isGarbage ⟨1, 0⟩ = true := by
      decide +kernel
    have settled := reached.apply (.settle (shelving [shelved, stranger]).contextual)
    obtain ⟨-, -, -, alone⟩ := settled.sound.isGarbage_iff.mp garbage
    rw [eq_of_leads alone leads] at old
    exact absurd old (by decide +kernel)

end Graph

end EntityGraph
