import EntityGraph.Proofs.Json.Members
import EntityGraph.Proofs.Json.Text

/-! Documents read back from their text.

The text of a document determines it. A document that some text spells is read back from its own text: its keys stand in
order, its numbers are ones that a text can have, and it is not nested too deeply. -/

namespace EntityGraph

variable {j : Json}

/-- The number that a literal spells, without a limit to its size. -/
def Literal.unlimited (l : Literal) : Number :=
  if l.whole then .integer (if l.negative then -l.digits else l.digits) else .double l.double

theorem Number.unlimited_literal (n : Number) : n.literal.unlimited = n := by
  cases n with
  | integer n =>
    simp only [literal, Literal.unlimited, if_true, decide_eq_true_eq]
    -- The sign is kept apart from the digits and put back.
    split
    · congr 1
      omega
    · congr 1
      omega
  | double x =>
    have fraction := (Decimal.literal_negative Json.doubleFormat x.negative (Shortest.digits Json.doubleFormat.tie x)).2
    simp only [literal, Literal.unlimited, fraction, Bool.false_eq_true, if_false, Double.double_literal]

namespace TokenTree

mutual

/-- The document that tokens spell, without any limits. -/
def unlimited : TokenTree → Json
  | .null => .null
  | .bool b => .bool b
  | .number l => .number l.unlimited
  | .string s => .string (s.getD "")
  | .array items _ => .array (itemsUnlimited items)
  | .object members _ => .object (membersUnlimited members)

/-- The documents of the items. -/
def itemsUnlimited : List TokenTree → List Json
  | [] => []
  | t :: rest => t.unlimited :: itemsUnlimited rest

/-- The documents of the members, in the order in which they stand. -/
def membersUnlimited : List (Option String × TokenTree) → List (String × Json)
  | [] => []
  | (k, t) :: rest => (k.getD "", t.unlimited) :: membersUnlimited rest

end

end TokenTree

namespace Json

open TokenTree

mutual

/-- The tokens of a document spell it. -/
theorem unlimited_tokens : (j : Json) → j.tokens.unlimited = j
  | .null => rfl
  | .bool _ => rfl
  | .number n => by rw [tokens, unlimited, n.unlimited_literal]
  | .string _ => rfl
  | .array items => by rw [tokens, unlimited, unlimited_itemTokens items]
  | .object members => by rw [tokens, unlimited, unlimited_memberTokens members]

theorem unlimited_itemTokens : (items : List Json) → itemsUnlimited (itemTokens items) = items
  | [] => rfl
  | j :: rest => by rw [itemTokens, itemsUnlimited, unlimited_tokens j, unlimited_itemTokens rest]

theorem unlimited_memberTokens : (members : List (String × Json)) → membersUnlimited (memberTokens members) = members
  | [] => rfl
  | (k, j) :: rest => by
    rw [memberTokens, membersUnlimited, unlimited_tokens j, unlimited_memberTokens rest]
    rfl

end

/-- The first value in the text of a document is that document, and nothing follows. -/
theorem document_chars (j : Json) : Scan.document (Utf8.ofChars j.chars) = .whole j.tokens [] := by
  -- A character has a byte at least, so the fuel counted in bytes is enough for the characters.
  have enough : 2 * j.chars.length ≤ 2 * (Utf8.ofChars j.chars).length + 2 := by
    have := Utf8.length_le_ofChars j.chars
    omega
  have read := Scan.value_chars j _ enough [] Scan.endsNumber_nil
  rwa [List.append_nil] at read

/-- A text is that of one document. -/
theorem eq_of_chars_eq {j' : Json} (same : j.chars = j'.chars) : j = j' := by
  have read := document_chars j
  rw [same, document_chars j'] at read
  injection read with tokens
  -- The same text has the same tokens, and these determine the document.
  rw [← unlimited_tokens j, ← tokens, unlimited_tokens j']

end Json

/-! ### Documents that a text spells -/

/-- An integer of sixty-four bits, with or without sign, or a finite double. -/
def Number.Fits : Number → Prop
  | .integer n => -(2 ^ 63 : Nat) ≤ n ∧ n < (2 ^ 64 : Nat)
  | .double x => x.isFinite = true

namespace Number

variable {n : Number}

/-- A number that fits comes back from its literal. -/
theorem number?_literal (fits : n.Fits) : n.literal.number? = some n := by
  cases n with
  | double x => exact Double.number?_literal Json.doubleFormat fits
  | integer n =>
    obtain ⟨least, most⟩ := fits
    simp only [literal, Literal.number?, decide_eq_true_eq, true_and, UInt64.size, Nat.pow_eq]
    -- An integer below zero has sixty-three bits, any other one sixty-four.
    by_cases negative : n < 0
    · rw [if_neg (by omega), if_pos (by omega)]
      congr 2
      omega
    · rw [if_pos (by omega)]
      congr 2
      omega

/-- Rounded bits below those of infinity make a finite double. -/
theorem isFinite_ofMagnitude (negative : Bool) {bits : Nat} (small : bits < 2047 * 2 ^ 52) :
    (Double.ofMagnitude negative bits).isFinite = true := by
  have exponent : (Double.ofMagnitude negative bits).exponentBits < 2047 := by
    unfold Double.ofMagnitude Double.exponentBits
    simp only [Nat.pow_eq, Nat.toUInt64, UInt64.toNat_ofNat']
    -- The sign bit is above the exponent and does not count.
    split <;> omega
  rw [Double.isFinite, bne_iff_ne]
  omega

theorem isFinite_of_toDouble? {negative : Bool} {digits : Nat} {exponent : Int} {x : Double}
    (read : Decimal.toDouble? negative digits exponent = some x) : x.isFinite = true := by
  unfold Decimal.toDouble? at read
  -- Zero and numbers too small are zero, numbers too large are refused, and others are rounded.
  split at read
  · cases read
    exact isFinite_ofMagnitude negative (by decide)
  · dsimp only at read
    split at read
    · cases read
    · split at read
      · cases read
        exact isFinite_ofMagnitude negative (by decide)
      · obtain ⟨bits, rounded, rfl⟩ := Option.map_eq_some_iff.mp read
        exact isFinite_ofMagnitude negative (Decimal.lt_of_roundBits? rounded)

/-- A number that a literal spells fits. -/
theorem fits_of_number? {l : Literal} (read : l.number? = some n) : n.Fits := by
  unfold Literal.number? at read
  -- The literal is an integer with or without sign, or else it is rounded.
  split at read
  · rename_i whole
    have size := whole.2.2
    simp only [UInt64.size] at size
    cases read
    exact ⟨by omega, by omega⟩
  · split at read
    · rename_i whole
      have size := whole.2.2
      simp only [Nat.pow_eq] at size
      cases read
      exact ⟨by omega, by omega⟩
    · obtain ⟨x, rounded, rfl⟩ := Option.map_eq_some_iff.mp read
      exact isFinite_of_toDouble? rounded

end Number

namespace Json

open TokenTree

mutual

/-- Some text spells the document with at most the given levels of nesting. -/
def Spelled : Json → Nat → Prop
  | .number n, _ => n.Fits
  | .array items, room + 1 => itemsSpelled items room
  | .object members, room + 1 => members.Pairwise (fun a b => a.1 < b.1) ∧ membersSpelled members room
  | .array _, 0 => False
  | .object _, 0 => False
  | _, _ => True

/-- Texts spell the items. -/
def itemsSpelled : List Json → Nat → Prop
  | [], _ => True
  | j :: rest, room => j.Spelled room ∧ itemsSpelled rest room

/-- Texts spell the members' values. -/
def membersSpelled : List (String × Json) → Nat → Prop
  | [], _ => True
  | (_, j) :: rest, room => j.Spelled room ∧ membersSpelled rest room

end

theorem membersSpelled_iff {members : List (String × Json)} {room : Nat} :
    membersSpelled members room ↔ ∀ e ∈ members, e.2.Spelled room := by
  induction members with
  | nil => simp [membersSpelled]
  | cons e rest ih =>
    rcases e with ⟨k, j⟩
    rw [membersSpelled, ih, List.forall_mem_cons]

mutual

/-- The tokens of a document that a text spells, spell it. -/
theorem toJson?_tokens : (j : Json) → (room : Nat) → j.Spelled room → j.tokens.toJson? room = some j
  | .null, _, _ => by simp [tokens, toJson?]
  | .bool _, _, _ => by simp [tokens, toJson?]
  | .number n, room, fits => by
    rw [tokens, toJson?, n.number?_literal fits]
    rfl
  | .string _, _, _ => by simp [tokens, toJson?]
  | .array items, 0, spelled => spelled.elim
  | .object members, 0, spelled => spelled.elim
  | .array items, room + 1, spelled => by
    rw [tokens, toJson?, if_pos rfl, toJson?_itemTokens items room spelled]
    rfl
  | .object members, room + 1, spelled => by
    rw [tokens, toJson?, if_pos rfl, toJson?_memberTokens members room [] (by simpa using spelled.1) spelled.2]
    rfl

theorem toJson?_itemTokens : (items : List Json) → (room : Nat) → itemsSpelled items room →
    itemsToJson? (itemTokens items) room = some items
  | [], _, _ => by simp [itemTokens, itemsToJson?]
  | j :: rest, room, spelled => by
    rw [itemTokens, itemsToJson?, toJson?_tokens j room spelled.1, toJson?_itemTokens rest room spelled.2]
    rfl

/-- Members in key order are gathered behind those before them. -/
theorem toJson?_memberTokens : (members : List (String × Json)) → (room : Nat) → (before : List (String × Json)) →
    (before ++ members).Pairwise (fun a b => a.1 < b.1) → membersSpelled members room →
    membersToJson? (memberTokens members) room before = some (before ++ members)
  | [], _, before, _, _ => by simp [memberTokens, membersToJson?]
  | (k, j) :: rest, room, before, sorted, spelled => by
    -- The key comes after all earlier ones, so its member is bound at the end.
    have last : ∀ e ∈ before, e.1 < k := fun e mem =>
      (List.pairwise_append.mp sorted).2.2 e mem (k, j) List.mem_cons_self
    rw [memberTokens, membersToJson?, toJson?_tokens j room spelled.1]
    simp only [Option.bind_eq_bind, Option.bind_some, Entries.insert_of_lt last]
    rw [toJson?_memberTokens rest room (before ++ [(k, j)]) (by simpa using sorted) spelled.2]
    simp

end

mutual

/-- What tokens spell within some levels is a document that a text spells. -/
theorem spelled_of_toJson? : (t : TokenTree) → (room : Nat) → (j : Json) → t.toJson? room = some j → j.Spelled room
  | .null, _, _, read => by
    rw [toJson?] at read
    cases read
    trivial
  | .bool _, _, _, read => by
    rw [toJson?] at read
    cases read
    trivial
  | .number l, _, _, read => by
    rw [toJson?] at read
    obtain ⟨n, number, rfl⟩ := Option.map_eq_some_iff.mp read
    exact Number.fits_of_number? number
  | .string s, _, _, read => by
    rw [toJson?] at read
    obtain ⟨text, -, rfl⟩ := Option.map_eq_some_iff.mp read
    trivial
  | .array items closed, room, j, read => by
    obtain ⟨inner, js, rfl, -, inside, rfl⟩ := of_toJson?_array read
    exact itemsSpelled_of_itemsToJson? items inner js inside
  | .object members closed, room, j, read => by
    obtain ⟨inner, gathered, rfl, -, inside, rfl⟩ := of_toJson?_object read
    exact ⟨sorted_membersToJson? .nil inside, membersSpelled_of_membersToJson? members inner [] gathered trivial inside⟩

theorem itemsSpelled_of_itemsToJson? : (items : List TokenTree) → (room : Nat) → (js : List Json) →
    itemsToJson? items room = some js → itemsSpelled js room
  | [], _, _, read => by
    rw [itemsToJson?] at read
    cases read
    trivial
  | t :: rest, room, js, read => by
    rw [itemsToJson?] at read
    obtain ⟨j, here, others⟩ := Option.bind_eq_some_iff.mp read
    obtain ⟨js', later, same⟩ := Option.bind_eq_some_iff.mp others
    cases same
    exact ⟨spelled_of_toJson? t room j here, itemsSpelled_of_itemsToJson? rest room js' later⟩

theorem membersSpelled_of_membersToJson? : (members : List (Option String × TokenTree)) → (room : Nat) →
    (before gathered : List (String × Json)) → membersSpelled before room →
    membersToJson? members room before = some gathered → membersSpelled gathered room
  | [], _, _, _, spelled, read => by
    rw [membersToJson?] at read
    cases read
    exact spelled
  | (key, t) :: rest, room, before, gathered, spelled, read => by
    obtain ⟨k, j, -, here, later⟩ := of_membersToJson?_cons read
    refine membersSpelled_of_membersToJson? rest room _ gathered ?_ later
    -- The new binding is spelled, and so are the older ones.
    rw [membersSpelled_iff] at spelled ⊢
    intro e mem
    rcases Entries.of_mem_insert mem with rfl | old
    · exact spelled_of_toJson? t room j here
    · exact spelled e old

end

/-- A document that some text spells comes back from its own. -/
theorem Spelled.json?_render (spelled : j.Spelled levels) : Scan.json? (Utf8.encode j.render) = some j := by
  unfold Scan.json?
  -- The text has one value and nothing behind it.
  rw [render_eq, Utf8.encode_ofList, document_chars]
  exact toJson?_tokens j levels spelled

/-- What is read was spelled. -/
theorem spelled_of_json? {bytes : List UInt8} (read : Scan.json? bytes = some j) : j.Spelled levels := by
  unfold Scan.json? at read
  -- Something is read only from a whole value with nothing but blanks behind it.
  split at read
  · split at read
    · exact spelled_of_toJson? _ _ _ read
    · cases read
  · cases read

end Json

namespace Emit

/-- The members that an unknown record arrived with are those of an object that a text spells. -/
theorem unknownMembers_spelled (body : UnknownBody) : (unknownMembers body).Pairwise (fun a b => a.1 < b.1) ∧
    Json.membersSpelled (unknownMembers body) (TokenTree.levels - 1) := by
  have nothing : (([] : List (String × Json)).Pairwise fun a b => a.1 < b.1) ∧
      Json.membersSpelled [] (TokenTree.levels - 1) :=
    ⟨.nil, trivial⟩
  unfold unknownMembers
  -- A body that is no text, or the text of no object, has no members.
  split
  · split
    · rename_i members read
      exact Json.spelled_of_json? read
    · exact nothing
  · exact nothing

end Emit

end EntityGraph
