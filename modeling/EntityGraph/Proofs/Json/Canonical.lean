import EntityGraph.Proofs.Json.ParseBack

/-! The canonical text of an object, with any text in front of it.

The text in front has no mark at its end, so the object must not start at two places. A reader that counts quotes and
brackets closes the first one exactly at the end of the text. If it met another object on the way, it would be back
where it was after that object: inside of a bracket or of a string. -/

namespace EntityGraph

open List

namespace Json

mutual

/-- The document with the members of every object in key order, the last of a repeated key. -/
def ordered : Json → Json
  | .array items => .array (orderedItems items)
  | .object members => .object (Entries.ofList (orderedMembers members))
  | j => j

/-- The items in order. -/
def orderedItems : List Json → List Json
  | [] => []
  | j :: rest => j.ordered :: orderedItems rest

/-- The members' values in order; the members stay where they are. -/
def orderedMembers : List (String × Json) → List (String × Json)
  | [] => []
  | (k, j) :: rest => (k, j.ordered) :: orderedMembers rest

end

/-- The texts of members are those of their values. -/
theorem memberTexts_eq (members : List (String × Json)) :
    memberTexts members = members.map fun e => (e.1, e.2.chars) := by
  induction members with
  | nil => rfl
  | cons e rest ih =>
    rcases e with ⟨k, j⟩
    rw [memberTexts, ih, map_cons]

mutual

/-- The canonical text of a document is the text of the ordered one. -/
theorem canonicalChars_eq : (j : Json) → j.canonicalChars = j.ordered.chars
  | .null => rfl
  | .bool _ => rfl
  | .number _ => rfl
  | .string _ => rfl
  | .array items => by rw [canonicalChars, ordered, chars, canonicalItems_eq items]
  | .object members => by
    -- The texts are put in order instead of the members, which comes to the same.
    rw [canonicalChars, ordered, chars, canonicalMembers_eq members, memberTexts_eq, memberTexts_eq, Entries.ofList_map]

/-- So is the text of elements. -/
theorem canonicalItems_eq : (items : List Json) → canonicalItems items = itemChars (orderedItems items)
  | [] => rfl
  | j :: rest => by rw [canonicalItems, orderedItems, itemChars, canonicalChars_eq j, canonicalItems_eq rest]

/-- So is that of members. -/
theorem canonicalMembers_eq : (members : List (String × Json)) →
    canonicalMembers members = memberTexts (orderedMembers members)
  | [] => rfl
  | (k, j) :: rest => by
    rw [canonicalMembers, orderedMembers, memberTexts, canonicalChars_eq j, canonicalMembers_eq rest]

end

end Json

/-- Where a reader is that keeps count of quotes and brackets. The depth counts the brackets that are open inside of the
first one. -/
inductive Place where
  | outside (depth : Nat)
  | inside (depth : Nat)
  /-- After a backslash in a string. -/
  | escaped (depth : Nat)
  /-- The first bracket is closed. -/
  | closed
  /-- No object has this text. -/
  | lost

namespace Place

variable {p : Place} {cs : List Char} {c : Char} {texts : List (List Char)}

/-- One character further. -/
def step : Place → Char → Place
  | .outside depth, c =>
    if c = '"' then .inside depth
    else if c = '\\' then .lost
    else if c = '[' ∨ c = '\x7b' then .outside (depth + 1)
    else if c = ']' ∨ c = '\x7d' then if depth = 0 then .closed else .outside (depth - 1)
    else .outside depth
  | .inside depth, c => if c = '"' then .outside depth else if c = '\\' then .escaped depth else .inside depth
  | .escaped depth, c => if c = '\x7b' then .lost else .inside depth
  | .closed, _ => .lost
  | .lost, _ => .lost

/-- The place after some characters. -/
def run (p : Place) (cs : List Char) : Place :=
  cs.foldl step p

@[simp] theorem run_nil (p : Place) : p.run [] = p := rfl

@[simp] theorem run_cons (p : Place) (c : Char) (cs : List Char) : p.run (c :: cs) = (p.step c).run cs := rfl

/-- Characters are read one after the other. -/
@[simp] theorem run_append (p : Place) (cs ds : List Char) : p.run (cs ++ ds) = (p.run cs).run ds :=
  foldl_append

/-- What is lost stays lost. -/
@[simp] theorem run_lost (cs : List Char) : lost.run cs = lost := by
  induction cs with
  | nil => rfl
  | cons c cs ih => exact ih

/-- A character that opens or closes nothing. -/
def Quiet (c : Char) : Prop :=
  c ≠ '"' ∧ c ≠ '\\' ∧ c ≠ '[' ∧ c ≠ '\x7b' ∧ c ≠ ']' ∧ c ≠ '\x7d'

instance (c : Char) : Decidable (Quiet c) :=
  inferInstanceAs (Decidable (c ≠ '"' ∧ c ≠ '\\' ∧ c ≠ '[' ∧ c ≠ '\x7b' ∧ c ≠ ']' ∧ c ≠ '\x7d'))

/-- Whether characters are quiet can be computed. -/
theorem quiet_of_all (all : cs.all (fun c => decide (Quiet c)) = true) : ∀ c ∈ cs, Quiet c := by
  simpa using all

/-- Quiet characters leave the reader where it is. -/
theorem run_outside_quiet (quiet : ∀ c ∈ cs, Quiet c) (depth : Nat) : (outside depth).run cs = outside depth := by
  induction cs with
  | nil => rfl
  | cons c cs ih =>
    -- None of the marks that the reader counts.
    obtain ⟨quote, backslash, bracket, brace, closing, closingBrace⟩ := quiet c mem_cons_self
    rw [run_cons, step, if_neg quote, if_neg backslash, if_neg (by simp [bracket, brace]),
      if_neg (by simp [closing, closingBrace])]
    exact ih fun d mem => quiet d (.tail _ mem)

/-- A digit is quiet. -/
theorem quiet_of_isDigit (digit : c.isDigit = true) : Quiet c := by
  refine ⟨?_, ?_, ?_, ?_, ?_, ?_⟩ <;>
  · rintro rfl
    cases digit

/-- The digits of a number are quiet. -/
theorem quiet_digitChars (n : Nat) : ∀ c ∈ Decimal.digitChars n, Quiet c :=
  fun c mem => quiet_of_isDigit (Scan.isDigit_of_mem_digitChars n c mem)

/-- So are those of an integer, with its sign. -/
theorem quiet_intChars (n : Int) : ∀ c ∈ Decimal.intChars n, Quiet c := by
  intro c mem
  unfold Decimal.intChars at mem
  split at mem
  · rcases mem_cons.mp mem with rfl | digit
    · decide
    · exact quiet_digitChars _ c digit
  · exact quiet_digitChars _ c mem

theorem quiet_replicate (n : Nat) : ∀ c ∈ List.replicate n '0', Quiet c :=
  fun c mem => quiet_of_isDigit (Decimal.isDigit_replicate n c mem)

/-- A double in plain digits is quiet. -/
theorem quiet_plain (d : Shortest.Digits) : ∀ c ∈ Decimal.plain d, Quiet c := by
  have digits := quiet_digitChars d.digits
  -- Digits, zeros and a point, in one of three arrangements.
  unfold Decimal.plain
  dsimp only
  split
  · exact forall_mem_append.mpr ⟨forall_mem_append.mpr ⟨digits, quiet_replicate _⟩, quiet_of_all rfl⟩
  · split
    · exact forall_mem_append.mpr ⟨fun c mem => digits c (mem_of_mem_take mem),
        forall_mem_cons.mpr ⟨by decide, fun c mem => digits c (mem_of_mem_drop mem)⟩⟩
    · exact forall_mem_cons.mpr ⟨by decide, forall_mem_cons.mpr ⟨by decide,
        forall_mem_append.mpr ⟨quiet_replicate _, digits⟩⟩⟩

/-- So is one with an exponent. -/
theorem quiet_scientific (format : Decimal.Format) (d : Shortest.Digits) (leading : Int) :
    ∀ c ∈ Decimal.scientific format d leading, Quiet c := by
  have digits := quiet_digitChars d.digits
  -- Digits around a point, the mark of the exponent, a sign and digits again.
  unfold Decimal.scientific
  dsimp only
  refine forall_mem_append.mpr ⟨forall_mem_append.mpr ⟨?_, forall_mem_cons.mpr ⟨by decide, ?_⟩⟩,
    quiet_intChars leading⟩
  · split
    · exact digits
    · exact forall_mem_append.mpr ⟨fun c mem => digits c (mem_of_mem_take mem),
        forall_mem_cons.mpr ⟨by decide, fun c mem => digits c (mem_of_mem_drop mem)⟩⟩
  · split <;> exact quiet_of_all rfl

/-- A number is written without quotes and brackets. -/
theorem quiet_numberChars (n : Number) : ∀ c ∈ Json.numberChars n, Quiet c := by
  cases n with
  | integer n => exact quiet_intChars n
  | double x =>
    have magnitude : ∀ c ∈ Decimal.magnitudeChars Json.doubleFormat (Shortest.digits Json.doubleFormat.tie x),
        Quiet c := by
      unfold Decimal.magnitudeChars
      dsimp only
      split
      · exact quiet_plain _
      · exact quiet_scientific _ _ _
    rw [Json.numberChars, Decimal.finiteChars_eq]
    split
    · exact forall_mem_cons.mpr ⟨by decide, magnitude⟩
    · exact magnitude

/-- An escaped character leaves a string open. -/
theorem run_inside_escape (c : Char) (depth : Nat) : (inside depth).run (Json.escape c) = inside depth := by
  -- Hexadecimal digits are no marks.
  have hex : ∀ n : Fin 16, Quiet (Json.hexChar n.val) := by decide +kernel
  have ordinary : ∀ c, c ≠ '"' → c ≠ '\\' → (inside depth).step c = inside depth := by
    intro c quote backslash
    rw [step, if_neg quote, if_neg backslash]
  -- What follows a backslash is a letter or another mark, never a brace.
  have short : ∀ letter, letter ≠ '\x7b' → (inside depth).run ['\\', letter] = inside depth := by
    intro letter brace
    simp [step, brace]
  unfold Json.escape
  split
  · exact short _ (by decide)
  split
  · exact short _ (by decide)
  split
  · rename_i quote backslash _
    exact ordinary c quote backslash
  split
  · exact short _ (by decide)
  split
  · exact short _ (by decide)
  split
  · exact short _ (by decide)
  split
  · exact short _ (by decide)
  split
  · exact short _ (by decide)
  · -- A control character is written by its number: after the letter there are four digits.
    obtain ⟨high, low⟩ : Quiet (Json.hexChar (c.toNat / 16)) ∧ Quiet (Json.hexChar (c.toNat % 16)) :=
      ⟨hex ⟨c.toNat / 16, by omega⟩, hex ⟨c.toNat % 16, by omega⟩⟩
    have unit := short 'u' (by decide)
    simp only [run_cons, run_nil] at unit ⊢
    rw [unit, ordinary '0' (by decide) (by decide), ordinary '0' (by decide) (by decide), ordinary _ high.1 high.2.1,
      ordinary _ low.1 low.2.1]

/-- A string ends where it began, outside of strings. -/
theorem run_outside_string (s : String) (depth : Nat) : (outside depth).run (Json.stringChars s) = outside depth := by
  -- Between its quotes a string is never left.
  have inner : ∀ cs : List Char, (inside depth).run (cs.flatMap Json.escape) = inside depth := by
    intro cs
    induction cs with
    | nil => rfl
    | cons c cs ih => rw [flatMap_cons, run_append, run_inside_escape, ih]
  rw [Json.stringChars, run_cons, run_append, show (outside depth).step '"' = inside depth from rfl, inner]
  rfl

/-- Texts that leave the reader where it is do so with commas between them. -/
theorem run_outside_comma {depth : Nat} (each : ∀ text ∈ texts, (outside depth).run text = outside depth) :
    (outside depth).run (Json.commaChars texts) = outside depth := by
  fun_induction Json.commaChars texts with
  | case1 => rfl
  | case2 text => exact each text mem_cons_self
  | case3 text rest _ ih =>
    rw [run_append, each text mem_cons_self, run_cons, show (outside depth).step ',' = outside depth from rfl]
    exact ih fun t mem => each t (.tail _ mem)

mutual

/-- After a document the reader is where it was before. -/
theorem run_outside_chars : (j : Json) → (depth : Nat) → (outside depth).run j.chars = outside depth
  | .null, depth => rfl
  | .bool true, depth => rfl
  | .bool false, depth => rfl
  | .number n, depth => run_outside_quiet (quiet_numberChars n) depth
  | .string s, depth => run_outside_string s depth
  | .array items, depth => by
    -- The bracket is open while the items are read, and closed behind them.
    rw [Json.chars, run_cons, run_append, show (outside depth).step '[' = outside (depth + 1) from rfl,
      run_outside_comma (run_outside_items items (depth + 1))]
    rfl
  | .object members, depth => by
    rw [Json.chars, run_cons, run_append, show (outside depth).step '\x7b' = outside (depth + 1) from rfl,
      run_outside_comma (run_outside_members members (depth + 1))]
    rfl

/-- So it is after an element. -/
theorem run_outside_items : (items : List Json) → (depth : Nat) →
    ∀ text ∈ Json.itemChars items, (outside depth).run text = outside depth
  | [], _ => by simp [Json.itemChars]
  | j :: rest, depth => forall_mem_cons.mpr ⟨run_outside_chars j depth, run_outside_items rest depth⟩

/-- So it is after a member. -/
theorem run_outside_members : (members : List (String × Json)) → (depth : Nat) →
    ∀ text ∈ (Json.memberTexts members).map Json.memberChars, (outside depth).run text = outside depth
  | [], _ => by simp [Json.memberTexts]
  | (k, j) :: rest, depth => by
    refine forall_mem_cons.mpr ⟨?_, run_outside_members rest depth⟩
    rw [Json.memberChars, run_append, run_outside_string, run_cons,
      show (outside depth).step ':' = outside depth from rfl]
    exact run_outside_chars j depth

end

/-! ### A document met inside of a string

Its quotes close and open the string in turn, so the reader is inside whenever the document is outside. -/

/-- Inside of a string, or lost. -/
def Within : Place → Prop
  | .inside _ | .lost => True
  | _ => False

/-- Not inside of a string, or lost. -/
def Without : Place → Prop
  | .outside _ | .closed | .lost => True
  | _ => False

/-- A string goes on up to a quote or a backslash. -/
theorem Within.step_plain (within : p.Within) (quote : c ≠ '"') (backslash : c ≠ '\\') : (p.step c).Within := by
  cases p with
  | inside depth =>
    rw [step, if_neg quote, if_neg backslash]
    trivial
  | lost => trivial
  | outside depth => exact within.elim
  | escaped depth => exact within.elim
  | closed => exact within.elim

/-- Only a quote begins a string. -/
theorem Without.step_plain (without : p.Without) (quote : c ≠ '"') : (p.step c).Without := by
  cases p with
  | outside depth =>
    rw [step, if_neg quote]
    split
    · trivial
    split
    · trivial
    split
    · split <;> trivial
    · trivial
  | closed => trivial
  | lost => trivial
  | inside depth => exact without.elim
  | escaped depth => exact without.elim

/-- A quote ends a string. -/
theorem Within.step_quote (within : p.Within) : (p.step '"').Without := by
  cases p with
  | inside depth => trivial
  | lost => trivial
  | outside depth => exact within.elim
  | escaped depth => exact within.elim
  | closed => exact within.elim

/-- A quote begins a string. -/
theorem Without.step_quote (without : p.Without) : (p.step '"').Within := by
  cases p with
  | outside depth => trivial
  | closed => trivial
  | lost => trivial
  | inside depth => exact without.elim
  | escaped depth => exact without.elim

/-- A backslash has no place outside of strings. -/
theorem Without.step_backslash (without : p.Without) : p.step '\\' = lost := by
  cases p with
  | outside depth => rfl
  | closed => rfl
  | lost => rfl
  | inside depth => exact without.elim
  | escaped depth => exact without.elim

/-- Quiet characters stay in a string. -/
theorem Within.run_quiet (quiet : ∀ c ∈ cs, Quiet c) (within : p.Within) : (p.run cs).Within := by
  induction cs generalizing p with
  | nil => exact within
  | cons c cs ih =>
    obtain ⟨quote, backslash, -⟩ := quiet c mem_cons_self
    exact ih (fun d mem => quiet d (.tail _ mem)) (within.step_plain quote backslash)

/-- What is escaped outside of strings begins none. -/
theorem Without.run_escape (without : p.Without) (c : Char) : (p.run (Json.escape c)).Without := by
  -- The escapes of the document are outside of the string that the reader is in, and lose it.
  have lost_rest : ∀ cs, (p.run ('\\' :: cs)).Without := by
    intro cs
    rw [run_cons, without.step_backslash, run_lost]
    trivial
  unfold Json.escape
  split
  · exact lost_rest _
  split
  · exact lost_rest _
  split
  · rename_i quote _ _
    exact without.step_plain quote
  split
  · exact lost_rest _
  split
  · exact lost_rest _
  split
  · exact lost_rest _
  split
  · exact lost_rest _
  split
  · exact lost_rest _
  · exact lost_rest _

/-- A string that is met inside of a string leads back into it. -/
theorem Within.run_string (within : p.Within) (s : String) : (p.run (Json.stringChars s)).Within := by
  -- The quotes of the document's string swap the two sides for its text.
  have inner : ∀ (cs : List Char) (p : Place), p.Without → (p.run (cs.flatMap Json.escape)).Without := by
    intro cs
    induction cs with
    | nil => exact fun p without => without
    | cons c cs ih =>
      intro p without
      rw [flatMap_cons, run_append]
      exact ih _ (without.run_escape c)
  rw [Json.stringChars, run_cons, run_append]
  exact (inner _ _ within.step_quote).step_quote

/-- So do texts with commas between them, if each does. -/
theorem Within.run_comma (each : ∀ text ∈ texts, ∀ p : Place, p.Within → (p.run text).Within)
    (within : p.Within) : (p.run (Json.commaChars texts)).Within := by
  fun_induction Json.commaChars texts generalizing p with
  | case1 => exact within
  | case2 text => exact each text mem_cons_self p within
  | case3 text rest _ ih =>
    rw [run_append, run_cons]
    -- A comma opens and closes nothing.
    have first := each text mem_cons_self p within
    exact ih (fun t mem => each t (.tail _ mem)) (first.step_plain (by decide) (by decide))

mutual

/-- After a document that was met inside of a string the reader is inside of a string, or lost. -/
theorem within_run_chars : (j : Json) → (p : Place) → p.Within → (p.run j.chars).Within
  | .null, _, within => within.run_quiet (quiet_of_all rfl)
  | .bool true, _, within => within.run_quiet (quiet_of_all rfl)
  | .bool false, _, within => within.run_quiet (quiet_of_all rfl)
  | .number n, _, within => within.run_quiet (quiet_numberChars n)
  | .string s, _, within => within.run_string s
  | .array items, p, within => by
    rw [Json.chars, run_cons, run_append]
    -- Brackets inside of a string do not count.
    have opened := within.step_plain (c := '[') (by decide) (by decide)
    exact (opened.run_comma (within_run_items items)).step_plain (by decide) (by decide)
  | .object members, p, within => by
    rw [Json.chars, run_cons, run_append]
    have opened := within.step_plain (c := '\x7b') (by decide) (by decide)
    exact (opened.run_comma (within_run_members members)).step_plain (by decide) (by decide)

/-- So it is after an element. -/
theorem within_run_items : (items : List Json) → ∀ text ∈ Json.itemChars items, ∀ p : Place, p.Within →
    (p.run text).Within
  | [] => by simp [Json.itemChars]
  | j :: rest => forall_mem_cons.mpr ⟨within_run_chars j, within_run_items rest⟩

/-- So it is after a member. -/
theorem within_run_members : (members : List (String × Json)) →
    ∀ text ∈ (Json.memberTexts members).map Json.memberChars, ∀ p : Place, p.Within → (p.run text).Within
  | [] => by simp [Json.memberTexts]
  | (k, j) :: rest => by
    refine forall_mem_cons.mpr ⟨fun p within => ?_, within_run_members rest⟩
    rw [Json.memberChars, run_append, run_cons]
    exact within_run_chars j _ ((within.run_string k).step_plain (by decide) (by decide))

end

end Place

namespace Json

open Place

variable {members members' : List (String × Json)} {front : List Char}

/-- The bracket that an object opens is closed at the end of its text. -/
theorem run_object (members : List (String × Json)) : ∃ body, (Json.object members).chars = '\x7b' :: body ∧
    (outside 0).run body = closed := by
  refine ⟨_, chars.eq_def (.object members), ?_⟩
  rw [run_append, run_outside_comma (run_outside_members members 0)]
  rfl

/-- No end of an object's text is the text of an object, apart from the whole. -/
theorem no_object_behind (same : (Json.object members).chars = front ++ (Json.object members').chars) : front = [] := by
  obtain ⟨body, text, ends⟩ := run_object members
  obtain ⟨body', text', -⟩ := run_object members'
  have outer := run_outside_chars (.object members')
  have inner := within_run_chars (.object members')
  cases front with
  | nil => rfl
  | cons c front =>
    rw [text, cons_append] at same
    injection same with first rest
    -- The reader gets to the other object, reads it and is at the end, where the first bracket is closed.
    rw [rest, run_append] at ends
    generalize (outside 0).run front = place at ends
    cases place with
    | outside depth =>
      -- Inside of a bracket the other object leaves that bracket open.
      rw [outer] at ends
      cases ends
    | inside depth =>
      -- Inside of a string the reader stays in a string, where no bracket is closed.
      have within := inner (.inside depth) trivial
      rw [ends] at within
      exact within.elim
    | escaped depth =>
      -- No escape has a brace.
      rw [text', run_cons, show (escaped depth).step '\x7b' = lost from rfl, run_lost] at ends
      cases ends
    | closed =>
      -- Nothing follows the first bracket.
      rw [text', run_cons, show closed.step '\x7b' = lost from rfl, run_lost] at ends
      cases ends
    | lost =>
      rw [run_lost] at ends
      cases ends

/-- A text with the canonical text of an object behind it determines both. -/
theorem append_canonicalChars {front' : List Char}
    (same : front ++ (Json.object members).canonicalChars = front' ++ (Json.object members').canonicalChars) :
    front = front' ∧ (Json.object members).ordered = (Json.object members').ordered := by
  have shape : ∀ ms, (Json.object ms).canonicalChars = (Json.object (Entries.ofList (orderedMembers ms))).chars :=
    fun ms => canonicalChars_eq (.object ms)
  -- If one front were longer, the rest of it would stand in front of an object inside of the other.
  have fronts : front = front' := by
    rw [shape, shape] at same
    obtain ⟨more, longer, behind⟩ | ⟨more, longer, behind⟩ := append_eq_append_iff.mp same
    · rw [longer, no_object_behind behind, append_nil]
    · rw [longer, no_object_behind behind, append_nil]
  subst fronts
  have texts := append_cancel_left same
  rw [canonicalChars_eq, canonicalChars_eq] at texts
  exact ⟨rfl, eq_of_chars_eq texts⟩

end Json

end EntityGraph
