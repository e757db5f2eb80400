import EntityGraph.Proofs.Graph.Origins
import EntityGraph.Proofs.Graph.Reachable

/-! What becomes of derived results: at the end of a round a field holds what was written to it last, which is the
result of the round unless a later result carries a record of the same entity. -/

namespace EntityGraph

open List

variable {acts : List Act} {w : Write}

/-- The last write to a field among acts. -/
def Acts.lastWrite? (key : Key) (i : Nat) : List Act → Option Write
  | [] => none
  | .meet _ :: rest => lastWrite? key i rest
  | .write w :: rest => lastWrite? key i rest <|> if w.key = key ∧ w.position = i then some w else none

namespace Acts

variable {key : Key} {i : Nat}

theorem lastWrite?_append (acts acts' : List Act) :
    lastWrite? key i (acts ++ acts') = (lastWrite? key i acts' <|> lastWrite? key i acts) := by
  induction acts with
  | nil => simp [lastWrite?]
  | cons act rest ih =>
    cases act with
    | meet r => exact ih
    | write w =>
      rw [cons_append, lastWrite?, lastWrite?, ih]
      cases lastWrite? key i acts' <;> rfl

/-- Without a write to the field there is no last one. -/
theorem lastWrite?_eq_none (others : ∀ w, .write w ∈ acts → w.key = key → w.position ≠ i) :
    lastWrite? key i acts = none := by
  induction acts with
  | nil => rfl
  | cons act rest ih =>
    have later := ih fun w member => others w (.tail _ member)
    cases act with
    | meet r => exact later
    | write w =>
      rw [lastWrite?, later, if_neg fun hit => others w mem_cons_self hit.1 hit.2]
      rfl

theorem lastWrite?_ne_none (member : .write w ∈ acts) : lastWrite? w.key w.position acts ≠ none := by
  obtain ⟨before, after, rfl⟩ := append_of_mem member
  rw [lastWrite?_append, lastWrite?]
  cases lastWrite? w.key w.position after <;> simp

end Acts

namespace Stored

theorem fieldLinks_eq_of_each {as bs : List (Field Stored)}
    (each : ∀ a, .value a ∈ as → ∀ b : Stored, a.same b = true → a.links = b.links) (alike : sameFields as bs = true) :
    fieldLinks as = fieldLinks bs := by
  induction as generalizing bs with
  | nil => cases bs <;> simp_all [sameFields]
  | cons f rest ih =>
    have others : ∀ {bs}, sameFields rest bs = true → fieldLinks rest = fieldLinks bs :=
      ih fun a member => each a (.tail _ member)
    cases f <;> rcases bs with _ | ⟨_ | _ | b, bs⟩ <;>
      simp only [sameFields, Bool.and_eq_true, Bool.false_eq_true] at alike
    · rw [fieldLinks, fieldLinks, others alike]
    · rw [fieldLinks, fieldLinks, others alike]
    · rw [fieldLinks, fieldLinks, each _ mem_cons_self b alike.1, others alike.2]

/-- Stored values that are alike have the same links. -/
theorem links_eq_of_same (a b : Stored) (alike : a.same b = true) : a.links = b.links := by
  induction a using Stored.induct generalizing b with
  | plain v => cases b <;> simp_all [same, links]
  | link id => cases b <;> simp_all [same, links]
  | list items ih =>
    cases b <;> simp only [same, Bool.false_eq_true] at alike
    rename_i bs
    rw [links, links]
    induction items generalizing bs with
    | nil => cases bs <;> simp_all [sameItems]
    | cons item rest later =>
      have others := later fun s member => ih s (.tail _ member)
      rcases item with _ | a <;> rcases bs with _ | ⟨_ | b, bs⟩ <;>
        simp only [sameItems, Bool.and_eq_true, Bool.false_eq_true] at alike
      · exact others bs alike
      · rw [itemLinks, itemLinks, ih a mem_cons_self b alike.1, others bs alike.2]
  | map entries ih =>
    cases b <;> simp only [same, Bool.false_eq_true] at alike
    rename_i bs
    rw [links, links]
    induction entries generalizing bs with
    | nil => cases bs <;> simp_all [sameEntries]
    | cons e rest later =>
      have others := later fun k s member => ih k s (.tail _ member)
      rcases e with ⟨k, _ | a⟩ <;> rcases bs with _ | ⟨⟨l, _ | b⟩, bs⟩ <;>
        simp only [sameEntries, Bool.and_eq_true, Bool.false_eq_true] at alike
      · exact others bs alike.2
      · rw [entryLinks, entryLinks, ih k a mem_cons_self b alike.1.2, others bs alike.2]
  | inline r ih =>
    cases b <;> simp only [same, Bool.false_eq_true] at alike
    rename_i r'
    rcases r with ⟨layout, fields⟩
    rcases r' with ⟨layout', fields'⟩
    rw [sameRecord, Bool.and_eq_true] at alike
    rw [links, links, recordLinks, recordLinks, fieldLinks_eq_of_each ih alike.2]

theorem fieldLinks_eq_of_same (as bs : List (Field Stored)) (alike : sameFields as bs = true) :
    fieldLinks as = fieldLinks bs :=
  fieldLinks_eq_of_each (fun a _ b => links_eq_of_same a b) alike

end Stored

/-- The field is what the write wrote, or is alike. -/
def Write.IsIn (find : Key → Option NodeId) (w : Write) (f : Field Stored) : Prop :=
  ∃ s, w.image? find = some s ∧ (f = s ∨ Stored.sameField f s = true)

/-- It stays so as long as the nodes that the field links to are found. -/
theorem Write.IsIn.of_finds {find find' : Key → Option NodeId} {f : Field Stored} (isIn : w.IsIn find f)
    (more : FindsAmong find find' (Stored.fieldLinks [f])) : w.IsIn find' f := by
  obtain ⟨s, image, same⟩ := isIn
  have links : Stored.fieldLinks [f] = Stored.fieldLinks [s] := by
    rcases same with rfl | alike
    · rfl
    · exact Stored.fieldLinks_eq_of_same [f] [s] alike
  rw [links] at more
  exact ⟨s, Write.image?_of_finds more image, same⟩

namespace Graph

open Step

variable {g g' : Graph} {n : Node} {f : Field Stored} {id : NodeId} {schema : Schema} {e : Task × Field Value}
  {k : Int64}

/-- What one act does to a field of a node: it stays, or it is written. -/
theorem Does.field {act : Act} (does : Does g act g') (sound : Sound g) {key : Key} {i : Nat}
    (owner : g.find? key = some id) (live : g.node? id = some n) (here : n.fields[i]? = some f) :
    ∃ n' f', g'.node? id = some n' ∧ n'.fields[i]? = some f' ∧
      (Acts.lastWrite? key i [act] = none ∧ f' = f ∨
        ∃ w, Acts.lastWrite? key i [act] = some w ∧ w.IsIn g.find? f') := by
  obtain ⟨-, grows, -⟩ := (Performs.single does).sound sound
  obtain ⟨n', live', -⟩ := grows.live id n live
  obtain ⟨m, origin, same⟩ := does.origin sound live'
  obtain ⟨-, -, fields, -⟩ := same_of_lone same
  cases origin with
  | kept there other =>
    rw [live] at there
    cases there
    refine ⟨n', f, live', by rw [fields]; exact here, Or.inl ⟨Acts.lastWrite?_eq_none fun w member hit => ?_, rfl⟩⟩
    rw [mem_singleton] at member
    exact absurd (hit ▸ owner) (other w member.symm)
  | made _ _ dead =>
    rw [live] at dead
    cases dead
  | @wrote w _ m incoming owner' there image =>
    rw [live] at there
    cases there
    -- The node has one key only.
    obtain ⟨_, found, key₁⟩ := sound.toArena.of_find? owner
    obtain ⟨_, found', key₂⟩ := sound.toArena.of_find? owner'
    rw [found] at found'
    cases found'
    have hit : w.key = key := key₂.symm.trans key₁
    by_cases position : w.position = i
    · subst position
      have last : Acts.lastWrite? key w.position [.write w] = some w := by simp [Acts.lastWrite?, hit]
      rcases Stored.getElem?_put here incoming with put | ⟨put, alike⟩
      · exact ⟨n', incoming, live', by rw [fields]; exact put, Or.inr ⟨w, last, incoming, image, Or.inl rfl⟩⟩
      · exact ⟨n', f, live', by rw [fields]; exact put, Or.inr ⟨w, last, incoming, image, Or.inr alike⟩⟩
    · refine ⟨n', f, live', by rw [fields]; exact (Stored.getElem?_put_ne position incoming).trans here,
        Or.inl ⟨Acts.lastWrite?_eq_none fun w' member _ => ?_, rfl⟩⟩
      rw [mem_singleton, Act.write.injEq] at member
      rw [member]
      exact position

/-- What acts do to a field of a node: it stays, or holds what was written last. -/
theorem Performs.field (performs : Performs acts g g') (sound : Sound g) {key : Key} {i : Nat}
    (owner : g.find? key = some id) (live : g.node? id = some n) (here : n.fields[i]? = some f) :
    ∃ n' f', g'.node? id = some n' ∧ n'.fields[i]? = some f' ∧
      (Acts.lastWrite? key i acts = none ∧ f' = f ∨ ∃ w, Acts.lastWrite? key i acts = some w ∧ w.IsIn g'.find? f') := by
  induction performs generalizing n f with
  | nil => exact ⟨n, f, live, here, Or.inl ⟨rfl, rfl⟩⟩
  | @cons act acts g g₁ g' does others ih =>
    obtain ⟨sound₁, -, finds₁⟩ := (Performs.single does).sound sound
    obtain ⟨-, -, finds₂⟩ := others.sound sound₁
    obtain ⟨n₁, f₁, live₁, here₁, first⟩ := does.field sound owner live here
    obtain ⟨n', f', live', here', later⟩ := ih sound₁ (finds₁ _ _ owner) live₁ here₁
    refine ⟨n', f', live', here', ?_⟩
    -- The last write is one of the others, or else the first.
    rw [← singleton_append, Acts.lastWrite?_append]
    rcases later with ⟨none, rfl⟩ | ⟨w, last, isIn⟩
    · rw [none]
      rcases first with ⟨none', same⟩ | ⟨w, last, isIn⟩
      · exact Or.inl ⟨none', same⟩
      · exact Or.inr ⟨w, last, isIn.of_finds fun key c _ found => finds₂ key c (finds₁ key c found)⟩
    · exact Or.inr ⟨w, by rw [last]; rfl, isIn⟩

/-- What the live nodes of a graph link to is found after a sweep under the same keys. -/
theorem Swept.findsAmong (swept : Swept g g') (sound : Sound g) (live : g'.node? id = some n) :
    FindsAmong g.find? g'.find? n.links := by
  intro key c link found
  obtain ⟨m, there, rfl⟩ := sound.toArena.of_find? found
  have left := swept.sound.closed id c (by rwa [outgoing_of_live live])
  obtain ⟨m', there'⟩ := Graph.contains_iff.mp left
  have lone := swept.kept c ((swept.contains_iff c).mp left).2
  rw [there, there'] at lone
  have same : m'.key = m.key := by simpa [Node.lone] using congrArg Node.key (Option.some.inj lone)
  rw [← same]
  exact swept.sound.toArena.find? there'

/-- The last write to a field of a node among the results of a round is the one of its result, unless a later result
carries another. -/
theorem lastWrite?_ofResults {key : NodeId → Key} {before after : List (Task × Field Value)}
    (once : ((before ++ e :: after).map Prod.fst).Nodup)
    (apart : ∀ e' ∈ after, key e'.1.id = key e.1.id → e'.1.id = e.1.id)
    (free : ∀ e' ∈ after, ∀ w, .write w ∈ Acts.ofField schema e'.2 → w.key = key e.1.id → w.position ≠ e.1.field) :
    Acts.lastWrite? (key e.1.id) e.1.field (Acts.ofResults schema key (before ++ e :: after)) =
      some ⟨key e.1.id, e.1.field, e.2, true⟩ := by
  have later : Acts.lastWrite? (key e.1.id) e.1.field (Acts.ofResults schema key after) = none := by
    refine Acts.lastWrite?_eq_none fun w member hit position => ?_
    obtain ⟨e', listed, among⟩ := mem_flatMap.mp member
    rcases mem_append.mp among with carried | own
    · exact free e' listed w carried hit position
    · -- Another result is for another field.
      rw [mem_singleton, Act.write.injEq] at own
      subst own
      have same : e'.1 = e.1 := by
        rcases e' with ⟨⟨id', field'⟩, f'⟩
        rcases e with ⟨⟨id, field⟩, f⟩
        rw [Task.mk.injEq]
        exact ⟨apart _ listed hit, position⟩
      rw [map_append, map_cons] at once
      have apart' := (nodup_cons.mp (nodup_append.mp once).2.1).1
      exact apart' (by rw [← same]; exact mem_map_of_mem listed)
  have own : Acts.lastWrite? (key e.1.id) e.1.field [.write ⟨key e.1.id, e.1.field, e.2, true⟩] =
      some ⟨key e.1.id, e.1.field, e.2, true⟩ := by simp [Acts.lastWrite?]
  rw [Acts.ofResults, flatMap_append, flatMap_cons, ← Acts.ofResults, ← Acts.ofResults,
    Acts.lastWrite?_append, Acts.lastWrite?_append, later, Acts.lastWrite?_append, own]
  rfl

/-- At the end of a round each field that was derived holds what was written to it last. -/
theorem Sound.round_stores {F : Formulas} {diff : Diff} (sound : Sound g) (shaped : Nodes Node.Shaped g)
    (done : Graph.round F g = .ok diff g') (derived : e ∈ derivedAt F g) (live : g'.node? e.1.id = some n) :
    n.key = g.keyOf e.1.id ∧
      ∃ w f, Acts.lastWrite? n.key e.1.field (Acts.ofResults g.schema g.keyOf (derivedAt F g)) = some w ∧
        n.fields[e.1.field]? = some f ∧ w.IsIn g'.find? f := by
  obtain ⟨diff', g₁, derived₁, sound₁, ends⟩ := sound.round_parts F
  rw [Ends, done] at ends
  obtain ⟨-, merged, performs, rfl⟩ := ends
  have keys : g₁.keyOf = g.keyOf := by
    funext id
    rw [keyOf, keyOf, derived₁.cores.map Node.key (fun _ => rfl) id]
  rw [keys, derived₁.schema] at performs
  -- The node has the field that is derived, before anything is written.
  obtain ⟨n₁, info, -, live₁, described, -⟩ := derived₁.contextual shaped e derived
  have length := (derived₁.lasting _ (Node.Shaped.lasting F) shaped e.1.id n₁ live₁).length
  have inside : e.1.field < n₁.fields.length := by
    rw [length]
    exact (List.getElem?_eq_some_iff.mp described).1
  have owner : g₁.find? (g.keyOf e.1.id) = some e.1.id := by
    rw [← keys]
    exact sound₁.toArena.find?_keyOf (derived₁.live e derived)
  obtain ⟨n', f, live', here, last⟩ := performs.field sound₁ owner live₁ (getElem?_eq_getElem inside)
  obtain ⟨sound', -, finds⟩ := performs.sound sound₁
  -- The sweep leaves the node and what it links to.
  have swept := sound'.sweep
  have lone := swept.kept e.1.id ((swept.contains_iff e.1.id).mp (contains_iff.mpr ⟨n, live⟩)).2
  rw [live, live', Option.map_some, Option.map_some, Option.some.injEq] at lone
  obtain ⟨-, key, fields, -⟩ := same_of_lone (Or.inl lone)
  have key' : n.key = g.keyOf e.1.id := by
    obtain ⟨_, found, same⟩ := sound'.toArena.of_find? (finds _ _ owner)
    rw [live'] at found
    cases found
    rw [key, same]
  refine ⟨key', ?_⟩
  rw [key']
  rcases last with ⟨none, -⟩ | ⟨w, last, isIn⟩
  · have written : Act.write ⟨g.keyOf e.1.id, e.1.field, e.2, true⟩ ∈
        Acts.ofResults g.schema g.keyOf (derivedAt F g) := by
      refine mem_flatMap.mpr ⟨e, derived, ?_⟩
      simp
    exact absurd none (Acts.lastWrite?_ne_none written)
  · refine ⟨w, f, last, by rw [fields]; exact here, isIn.of_finds ((swept.findsAmong sound' live).mono ?_)⟩
    intro c link
    rw [Node.links, fields]
    exact Stored.mem_fieldLinks_of_mem (mem_of_getElem? here) link

/-- A round derives each field once, for live nodes that their keys tell apart. -/
theorem Sound.derivedAt_once (sound : Sound g) (F : Formulas) :
    ((derivedAt F g).map Prod.fst).Nodup ∧ ∀ e ∈ derivedAt F g, ∀ e' ∈ derivedAt F g,
      g.keyOf e'.1.id = g.keyOf e.1.id → e'.1.id = e.1.id := by
  obtain ⟨diff, g₁, derived, -, -⟩ := sound.round_parts F
  have found : ∀ e ∈ derivedAt F g, g.find? (g.keyOf e.1.id) = some e.1.id := by
    intro e member
    refine sound.toArena.find?_keyOf ?_
    rw [← derived.cores.contains]
    exact derived.live e member
  refine ⟨derived.once, fun e member e' member' same => ?_⟩
  have both := found e' member'
  rw [same, found e member] at both
  exact (Option.some.inj both).symm

/-- A sound graph whose nodes are in shape. -/
structure Formed (g : Graph) : Prop where
  sound : Sound g
  shaped : Nodes Node.Shaped g

namespace Formed

variable {F : Formulas}

theorem performs (formed : Formed g) (performs : Performs acts g g') : Formed g' :=
  ⟨(performs.sound formed.sound).1, performs.shaped formed.sound formed.shaped⟩

variable (formed : Formed g)
include formed

theorem pending (changed orphans created : List NodeId) :
    Formed { g with changed := changed, orphans := orphans, created := created } :=
  ⟨formed.sound.quiet (.pending g _ _ _), formed.shaped⟩

theorem sweep : Formed g.sweep :=
  ⟨formed.sound.sweep.sound, formed.shaped.swept Node.Shaped.loose formed.sound.sweep⟩

theorem held (id : NodeId) (f : Nat → Nat) : Formed (g.update id fun n => { n with holds := f n.holds }) :=
  ⟨formed.sound.holds id f, formed.shaped.update fun n _ shaped => Node.Shaped.loose.held n _ shaped⟩

theorem round : Ends (Graph.round F) g (fun _ g' => Formed g') fun _ g' => Formed g' := by
  obtain ⟨diff, g₁, derived, sound₁, ends⟩ := formed.sound.round_parts F
  have formed₁ : Formed g₁ := ⟨sound₁, derived.lasting _ (Node.Shaped.lasting F) formed.shaped⟩
  refine ends.mono ?_ ?_
  · rintro _ g' ⟨-, merged, performs, rfl⟩
    exact (formed₁.performs performs).sweep
  · rintro _ g' ⟨-, done, -, performs⟩
    exact formed₁.performs performs

/-- Settling leaves a graph in shape, and so does each of its rounds. -/
theorem settles :
    Ends (Graph.settle F) g
      (fun _ g' => Formed g' ∧ ∀ h ∈ roundStarts F g.maxRounds g,
        Formed h ∧ ∃ diff h', Graph.round F h = .ok diff h')
      fun _ g' => Formed g' := by
  have keeps := @settle_keeps F g (fun _ h => Formed h) Formed formed (fun _ _ held => held)
    fun h _ _ held => held.round
  refine keeps.mono (fun _ _ held => ⟨held.1, fun h member => ?_⟩) fun _ _ held => held
  obtain ⟨⟨_, formed'⟩, done⟩ := held.2.2 h member
  exact ⟨formed', done⟩

theorem apply (op : Operation) : Formed (op.apply F g) := by
  cases op with
  | absorb r parentRoot =>
    exact Operation.apply_absorb formed.sound fun _ _ _ _ performs => ((formed.performs performs).pending _ _ _).sweep
  | retain id => exact Operation.apply_retain formed fun _ => formed.held id (· + 1)
  | release id => exact Operation.apply_release formed fun _ => ((formed.held id (· - 1)).pending _ _ _).sweep
  | build id =>
    refine Operation.apply_build formed.sound formed fun _ _ built => ?_
    exact ⟨formed.sound.quiet built.toQuiet, built.lasting _ (Node.Shaped.lasting F) formed.shaped⟩
  | invalidate id =>
    exact Operation.apply_invalidate formed fun _ =>
      ⟨formed.sound.quiet (.touch g id), formed.shaped.touch Node.Shaped.loose id⟩
  | takePrevious id =>
    exact ⟨formed.sound.quiet (.takePrevious g id), formed.shaped.takePrevious (Node.Shaped.lasting F) id⟩
  | settle contextual =>
    change Formed ((Graph.settle (F.withContextual contextual)).after g)
    exact formed.settles.after (fun _ _ held => held.1) fun _ _ held => held

end Formed

theorem Reachable.formed {F : Formulas} (reached : Reachable F schema g) : Formed g := by
  induction reached with
  | empty maxRounds => exact ⟨.empty schema maxRounds, fun id n live => by cases live⟩
  | apply _ op ih => exact ih.apply op

/-- In every round of a settling that succeeds, a derived field holds in the end what was written to it last, if its
node is still live. That is the result of the round, unless one stored later carries a record of the entity that
declares the field. -/
theorem Reachable.settle_stores {F : Formulas} {schema : Schema} {g g' : Graph} {diff : Diff}
    (reached : Reachable F schema g) (settled : settle F g = .ok diff g') :
    ∀ h ∈ roundStarts F g.maxRounds g, ∃ diff' h', round F h = .ok diff' h' ∧
      ∀ before e after, derivedAt F h = before ++ e :: after → ∀ n, h'.node? e.1.id = some n →
        ∃ w f, Acts.lastWrite? n.key e.1.field (Acts.ofResults h.schema h.keyOf (derivedAt F h)) = some w ∧
          n.fields[e.1.field]? = some f ∧ w.IsIn h'.find? f ∧
          ((∀ e' ∈ after, ∀ w', .write w' ∈ Acts.ofField h.schema e'.2 → w'.key = n.key →
            w'.position ≠ e.1.field) → w = ⟨n.key, e.1.field, e.2, true⟩) := by
  intro h member
  have ends : Ends (settle F) g _ _ := reached.formed.settles
  rw [Ends, settled] at ends
  obtain ⟨formed, diff', h', done⟩ := ends.2 h member
  refine ⟨diff', h', done, fun before e after split n live => ?_⟩
  have derived : e ∈ derivedAt F h := by simp [split]
  obtain ⟨key, w, f, last, here, isIn⟩ := formed.sound.round_stores formed.shaped done derived live
  refine ⟨w, f, last, here, isIn, fun free => ?_⟩
  -- Nothing else is written to the field after the result.
  obtain ⟨once, apart⟩ := formed.sound.derivedAt_once F
  have own := lastWrite?_ofResults (split ▸ once) (fun e' later => apart e derived e' (by simp [split, later]))
    (key ▸ free)
  rw [key, split, own] at last
  rw [key]
  exact (Option.some.inj last).symm

/-- Items with a count, and a copy of it that follows the count; boards that list all items and follow their counts. -/
def countedType : TypeDecl :=
  ⟨"Item", none, [⟨"id", .text, 1, true, false, none, []⟩, ⟨"count", .int, 2, false, false, none, []⟩,
    ⟨"shown", .int, 3, false, false, some (.contextual "shown"), [⟨none, .changed ["count"]⟩]⟩]⟩

def boardType : TypeDecl :=
  ⟨"Board", none, [⟨"id", .text, 1, true, false, none, []⟩,
    ⟨"items", .list (.record "Item"), 2, false, false, some (.contextual "items"),
      [⟨some "Item", .changed ["count"]⟩]⟩]⟩

def boardDeclarations : Declarations :=
  ⟨[countedType, boardType], [], []⟩

def countedLayout : Layout :=
  boardDeclarations.layout 0 [("Item", ⟨.changed ["count"], .own "Item" "shown"⟩),
    ("Item", ⟨.changed ["count"], .broadcast "Board" "items"⟩)] countedType []

def boardLayout : Layout :=
  boardDeclarations.layout 0 [] boardType []

def boardSchema : Schema :=
  ⟨0, [countedLayout, boardLayout], [], []⟩

theorem compile_board : Schema.compile 0 boardDeclarations = .ok boardSchema := by decide +kernel

/-- The count is shown, and a board lists all items as they were last built. -/
def boardFormulas : Formulas where
  pure _ _ := .absent
  contextual formula context :=
    if formula = "shown" then context.current.field "count"
    else .value (.list ((context.allOf "Item").map fun r => some (.record r)))

/-- The item with a count. -/
def counted (count : Int64) : Record :=
  ⟨countedLayout, [.value (.text "a"), .value (.int count), .absent]⟩

/-- The graph of a new item and a new board. -/
def boardGraph : Graph :=
  (absorb ⟨boardLayout, [.value (.text "b"), .absent]⟩ none).after
    ((absorb (counted 1) none).after (Graph.empty boardSchema defaultRounds))

theorem reachable_boardGraph : Reachable boardFormulas boardSchema boardGraph :=
  ((Reachable.empty defaultRounds).apply (.absorb (counted 1) none)).apply (.absorb _ none)

/-- The number in a field. -/
def numberOf (f : Field Value) : Option Int64 :=
  f.value?.bind Value.int?

/-- The number in a stored field. -/
def storedNumber : Field Stored → Option Int64
  | .value (.plain v) => v.int?
  | _ => none

theorem eq_of_numberOf {f : Field Value} (number : numberOf f = some k) : f = .value (.int k) := by
  cases f with
  | value v => cases v <;> simp_all [numberOf, Field.value?, Value.int?]
  | _ => simp [numberOf, Field.value?] at number

theorem eq_of_storedNumber (number : storedNumber f = some k) : f = .value (.plain (.int k)) := by
  cases f with
  | value s =>
    cases s with
    | plain v => cases v <;> simp_all [storedNumber, Value.int?]
    | _ => simp [storedNumber] at number
  | _ => simp [storedNumber] at number

/-- The field that an act writes. -/
def writtenAt? : Act → Option Nat
  | .meet _ => none
  | .write w => some w.position

/-- The count of the new item is shown after the first round. -/
theorem settle_stores_board : ∃ diff h n e f, round boardFormulas boardGraph = .ok diff h ∧
    h.node? ⟨0, 0⟩ = some n ∧ e ∈ derivedAt boardFormulas boardGraph ∧ numberOf e.2 = some 1 ∧
    n.fields[2]? = some f ∧ Write.IsIn h.find? ⟨n.key, 2, e.2, true⟩ f := by
  -- The item is live, its count is derived first, and what the board lists does not declare the field.
  have computed : ((settle boardFormulas).run' boardGraph).isSome = true ∧
      boardGraph ∈ roundStarts boardFormulas boardGraph.maxRounds boardGraph ∧
      ((round boardFormulas).after boardGraph).contains ⟨0, 0⟩ = true ∧
      (derivedAt boardFormulas boardGraph).map (fun e => (e.1, numberOf e.2)) =
        [(⟨⟨0, 0⟩, 2⟩, some 1), (⟨⟨1, 0⟩, 1⟩, none)] ∧
      ∀ e ∈ (derivedAt boardFormulas boardGraph).tail, ∀ act ∈ Acts.ofField boardGraph.schema e.2,
        writtenAt? act ≠ some 2 := by
    rw [mem_roundStarts_self]
    decide +kernel
  obtain ⟨settles, first, live, results, free⟩ := computed
  obtain ⟨diff₀, run⟩ := Option.isSome_iff_exists.mp settles
  obtain ⟨diff, h, done, stores⟩ := reachable_boardGraph.settle_stores (eq_ok_of_run' run) boardGraph first
  rw [Step.after, done] at live
  obtain ⟨n, there⟩ := contains_iff.mp live
  cases split : derivedAt boardFormulas boardGraph with
  | nil => rw [split] at results; cases results
  | cons e after =>
    rw [split] at results free
    simp only [map_cons, List.cons.injEq, Prod.mk.injEq] at results
    obtain ⟨⟨task, number⟩, -⟩ := results
    obtain ⟨w, f, -, here, isIn, own⟩ := stores [] e after split n (by rw [task]; exact there)
    rw [own fun e' later w' carried _ position => free e' later _ carried (by
      rw [writtenAt?, position, task])] at isIn
    rw [task] at here isIn
    exact ⟨diff, h, n, e, f, done, there, mem_cons_self, number, here, isIn⟩

/-- The graph after the count went up. -/
def recountedGraph : Graph :=
  (absorb (counted 2) none).after ((settle boardFormulas).after boardGraph)

/-- A board that lists the item as it was when the round began brings back the count that was shown then. -/
theorem not_settle_stores : ¬ ∀ (serial : Nat) (d : Declarations) (schema : Schema) (F : Formulas) (g g' : Graph)
    (diff : Diff), Schema.compile serial d = .ok schema → Reachable F schema g →
    settle F g = .ok diff g' → ∀ h ∈ roundStarts F g.maxRounds g, ∃ diff' h',
      round F h = .ok diff' h' ∧ ∀ e ∈ derivedAt F h, ∀ n, h'.node? e.1.id = some n →
        ∃ f, n.fields[e.1.field]? = some f ∧ Write.IsIn h'.find? ⟨n.key, e.1.field, e.2, true⟩ f := by
  intro claim
  -- The count that is derived is two, and the one that is shown in the end is one.
  have computed : ((settle boardFormulas).run' recountedGraph).isSome = true ∧
      recountedGraph ∈ roundStarts boardFormulas recountedGraph.maxRounds recountedGraph ∧
      (((round boardFormulas).after recountedGraph).node? ⟨0, 0⟩).map (fun n => (n.fields[2]?).map storedNumber) =
        some (some (some 1)) ∧
      (derivedAt boardFormulas recountedGraph).map (fun e => (e.1, numberOf e.2)) =
        [(⟨⟨0, 0⟩, 2⟩, some 2), (⟨⟨1, 0⟩, 1⟩, none)] := by
    rw [mem_roundStarts_self]
    decide +kernel
  obtain ⟨settles, first, shown, results⟩ := computed
  obtain ⟨diff₀, run⟩ := Option.isSome_iff_exists.mp settles
  obtain ⟨diff, h, done, stores⟩ := claim 0 boardDeclarations boardSchema boardFormulas recountedGraph _ _ compile_board
    ((reachable_boardGraph.apply (.settle boardFormulas.contextual)).apply (.absorb (counted 2) none))
    (eq_ok_of_run' run) recountedGraph first
  rw [Step.after, done] at shown
  obtain ⟨n, there, reads⟩ := Option.map_eq_some_iff.mp shown
  cases split : derivedAt boardFormulas recountedGraph with
  | nil => rw [split] at results; cases results
  | cons e after =>
    rw [split] at results stores
    simp only [map_cons, List.cons.injEq, Prod.mk.injEq] at results
    obtain ⟨⟨task, number⟩, -⟩ := results
    obtain ⟨f, here, s, image, same⟩ := stores e mem_cons_self n (by rw [task]; exact there)
    rw [task] at here
    rw [here, Option.map_some, Option.some.injEq] at reads
    rw [eq_of_storedNumber reads] at same
    rw [eq_of_numberOf number, task] at image
    simp only [Write.image?, Stored.ofValue?, if_true, Option.map_some, Option.some.injEq] at image
    subst image
    rcases same with equal | alike
    · cases equal
    · cases alike

end Graph

end EntityGraph
