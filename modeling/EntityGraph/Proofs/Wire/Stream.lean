import EntityGraph.Proofs.Wire.Basic

/-! Streams: what is written one after the other is read one after the other.

Any sequence of writes is read back by the reads that suit it, up to exactly where it ends. -/

namespace EntityGraph.Wire

open Reader Takes

variable {bytes rest : List UInt8} {n : Nat}

/-- What a stream is written from. -/
inductive Item where
  | byte (b : UInt8)
  | raw (bytes : List UInt8)
  | varint (n : Nat)
  | signed (n : Int64)
  | text (s : String)
  | prefixed (bytes : List UInt8)
  | double (x : Double)

/-- The bytes of an item. -/
def Item.write : Item → List UInt8
  | .byte b => [b]
  | .raw bytes => bytes
  | .varint n => Wire.varint n
  | .signed n => Wire.varint (zigzag n)
  | .text s => Wire.text s
  | .prefixed bytes => Wire.prefixed bytes
  | .double x => Wire.double x

/-- What a reader asks of a stream. A number of bytes comes from the reader, or else from the stream up to a limit. -/
inductive Request where
  | byte
  | raw (count : Nat)
  | varint
  | signed
  | text (limit : UInt64)
  | prefixed (limit : UInt64)
  | double

/-- Reads what is asked for. -/
def Request.read (context : String) : Request → Reader Item
  | .byte => Item.byte <$> Reader.byte context
  | .raw count => Item.raw <$> take count context
  | .varint => Item.varint <$> Reader.varint context
  | .signed => Item.signed <$> Reader.signed context
  | .text limit => Item.text <$> Reader.text limit.toNat context
  | .prefixed limit => Item.prefixed <$> Reader.prefixed limit.toNat context
  | .double => Item.double <$> Reader.double context

/-- The request is for such an item. Integers have at most sixty-four bits, and limits are not below lengths. -/
inductive Request.Suits : Request → Item → Prop where
  | byte (b : UInt8) : Suits .byte (.byte b)
  | raw (bytes : List UInt8) : Suits (.raw bytes.length) (.raw bytes)
  | varint {n : Nat} (small : n < UInt64.size) : Suits .varint (.varint n)
  | signed (n : Int64) : Suits .signed (.signed n)
  | text {limit : UInt64} {s : String} (room : s.utf8ByteSize ≤ limit.toNat) : Suits (.text limit) (.text s)
  | prefixed {limit : UInt64} {bytes : List UInt8} (room : bytes.length ≤ limit.toNat) :
      Suits (.prefixed limit) (.prefixed bytes)
  | double (x : Double) : Suits .double (.double x)

theorem Request.read_takes {request : Request} {item : Item} (suits : request.Suits item) (context : String) :
    Takes (request.read context) item.write True True item := by
  cases suits with
  | byte b => exact (byte_takes context b).map Item.byte
  | raw bytes => exact (take_takes context rfl).map Item.raw
  | varint small => exact ((varint_takes context _).congr fun _ => iff_of_true small trivial).map Item.varint
  | signed n => exact (signed_takes context n).map Item.signed
  | text room =>
    exact ((text_takes context _ (UInt64.toNat_lt _)).congr fun _ => iff_of_true room trivial).map Item.text
  | prefixed room =>
    exact ((prefixed_takes context _ (UInt64.toNat_lt _)).congr fun _ => iff_of_true room trivial).map Item.prefixed
  | double x => exact (double_takes context x).map Item.double

/-- Reads what is asked for, one after the other, each with the name of what is read. -/
def readAll (requests : List (String × Request)) : Reader (List Item) :=
  requests.mapM fun r => r.2.read r.1

theorem readAll_takes {requests : List (String × Request)} {items : List Item}
    (suit : List.Forall₂ (fun r item => r.2.Suits item) requests items) :
    Takes (readAll requests) (items.flatMap Item.write) True True items := by
  unfold readAll
  induction suit with
  | nil => exact pure []
  | cons first _ ih =>
    rw [List.mapM_cons, List.flatMap_cons]
    exact (Request.read_takes first _).andThen (ih.map _)

/-- The number that groups of seven bits stand for, the low ones first. -/
def ofGroups : List UInt8 → Nat
  | [] => 0
  | b :: rest => b.toNat % 128 + 128 * ofGroups rest

/-- Groups of seven bits that make up one integer: the high bit marks all but the last. -/
inductive Groups : List UInt8 → Prop where
  | last {b : UInt8} (ends : b < 128) : Groups [b]
  | more {b : UInt8} {rest : List UInt8} (continues : ¬ b < 128) (others : Groups rest) : Groups (b :: rest)

theorem groups_cons (context : String) (left : Nat) (b : UInt8) (tail : List UInt8) :
    groups context (left + 1) (b :: tail) = if left = 0 ∧ 1 < b.toNat % 128 then .error .varintOverflow tail
      else if b < 128 then .ok (b.toNat % 128) tail
      else ((fun high => b.toNat % 128 + 128 * high) <$> groups context left) tail := by
  rw [groups]
  change (if _ then _ else _ : Reader Nat) tail = _
  split
  · rfl
  · split <;> rfl

/-- A group below others that hold a number, or alone. Only one bit is left for the last group that is allowed. -/
theorem room_iff {left low high : Nat} (small : low < 128) (more : high = 0 ∨ 0 < left) :
    64 * (low + 128 * high) < 128 ^ (left + 1) ↔ ¬ (left = 0 ∧ 1 < low) ∧ 64 * high < 128 ^ left := by
  rw [Nat.pow_succ]
  rcases pow_eq_or left with rfl | ⟨half, others, positive, same⟩
  · omega
  · rw [same]
    omega

/-- Groups are read if there are not too many and the number keeps within the bits that they are allowed. -/
theorem groups_eq_ok_iff (context : String) (left : Nat) :
    groups context left bytes = .ok n rest ↔
      ∃ own, Groups own ∧ bytes = own ++ rest ∧ own.length ≤ left ∧ n = ofGroups own ∧ 64 * n < 128 ^ left := by
  -- By induction on the groups that are allowed: one more of them makes room for seven more bits.
  induction left generalizing bytes n with
  | zero =>
    refine iff_of_false (fun run => by cases run) ?_
    rintro ⟨own, groups, -, short, -⟩
    cases groups <;> simp at short
  | succ left ih =>
    cases bytes with
    | nil =>
      refine iff_of_false (fun run => by cases run) ?_
      rintro ⟨own, groups, empty, -⟩
      cases groups <;> simp at empty
    | cons b tail =>
      have low : b.toNat % 128 < 128 := Nat.mod_lt _ (by decide)
      rw [groups_cons]
      constructor
      · intro run
        split at run
        · cases run
        · split at run
          · cases run
            refine ⟨[b], .last ‹_›, rfl, by simp, rfl, (room_iff low (.inl rfl)).mpr ⟨‹_›, ?_⟩⟩
            exact Nat.pow_pos (by decide)
          · obtain ⟨high, middle, run, same⟩ := EStateM.bind_eq_ok.mp run
            cases same
            obtain ⟨own, groups, rfl, short, rfl, small⟩ := ih.mp run
            -- Groups follow, so this is not the last one that is allowed.
            have some : 0 < left := by cases groups <;> simp at short <;> omega
            have room := (room_iff low (.inr some)).mpr ⟨‹_›, small⟩
            exact ⟨b :: own, .more ‹_› groups, rfl, by simpa using short, rfl, room⟩
      · rintro ⟨own, groups, same, short, rfl, small⟩
        cases groups with
        | last ends =>
          cases same
          obtain ⟨one, -⟩ := (room_iff low (.inl rfl)).mp small
          rw [if_neg one, if_pos ends]
          rfl
        | more continues others =>
          cases same
          have some : 0 < left := by cases others <;> simp at short <;> omega
          obtain ⟨one, small⟩ := (room_iff low (.inr some)).mp small
          rw [if_neg one, if_neg continues]
          have run := ih.mpr ⟨_, others, rfl, by simpa using short, rfl, small⟩
          exact EStateM.bind_eq_ok.mpr ⟨_, _, run, rfl⟩

theorem varint_eq_ok_iff (context : String) :
    Reader.varint context bytes = .ok n rest ↔
      ∃ own, Groups own ∧ bytes = own ++ rest ∧ own.length ≤ 10 ∧ n = ofGroups own ∧ n < UInt64.size := by
  have limit : 64 * n < 128 ^ 10 ↔ n < UInt64.size := by rw [UInt64.size]; omega
  rw [← limit]
  exact groups_eq_ok_iff context 10

/-- Reads bits one after the other. -/
def Reader.bits (context : String) : Nat → List Bool → Reader (List Bool × List Bool)
  | 0, flags => return ([], flags)
  | count + 1, flags => do
    let (b, flags) ← bit context flags
    let (bs, flags) ← bits context count flags
    return (b :: bs, flags)

theorem bits_eq (context : String) (count : Nat) (flags : List Bool) (bytes : List UInt8) :
    bits context count flags bytes = if count ≤ flags.length then .ok (flags.take count, flags.drop count) bytes
      else .error (.unexpectedEnd context) bytes := by
  induction count generalizing flags with
  | zero => rfl
  | succ count ih =>
    cases flags with
    | nil => rfl
    | cons b rest =>
      have step : bits context (count + 1) (b :: rest) bytes =
          ((fun r => (b :: r.1, r.2)) <$> bits context count rest) bytes := rfl
      rw [step, List.length_cons]
      by_cases room : count ≤ rest.length <;> simp [Functor.map, EStateM.map, ih, room]

/-- Reads give back what was written, in order, and leave what follows. An integer is read exactly where groups end
within ten bytes and their number has at most sixty-four bits. Bits are read up to the end of the last byte, with zeros
behind those that were packed, and no further. -/
theorem readAll_write {requests : List (String × Request)} {items : List Item}
    (suit : List.Forall₂ (fun r item => r.2.Suits item) requests items) (context : String) (bits : List Bool) :
    (∀ rest, readAll requests (items.flatMap Item.write ++ rest) = .ok items rest) ∧
      (∀ bytes n rest, Reader.varint context bytes = .ok n rest ↔
        ∃ own, Groups own ∧ bytes = own ++ rest ∧ own.length ≤ 10 ∧ n = ofGroups own ∧ n < UInt64.size) ∧
      ∀ count bytes, Reader.bits context count (unpackBits (packBits bits)) bytes =
        if count ≤ (bits ++ padding bits).length then
          .ok ((bits ++ padding bits).take count, (bits ++ padding bits).drop count) bytes
        else .error (.unexpectedEnd context) bytes := by
  refine ⟨(readAll_takes suit).run trivial, fun _ _ _ => varint_eq_ok_iff context, fun count bytes => ?_⟩
  rw [(unpackBits_packBits bits).1, bits_eq]

/-- The largest integer, the lowest signed one and a double that is no number, among others, in front of a byte. -/
theorem readAll_write_extremes : readAll [("a", .byte), ("b", .raw 2), ("c", .varint), ("d", .signed), ("e", .text 2),
      ("f", .prefixed 9), ("g", .double)] ([Item.byte 7, .raw [1, 2], .varint 18446744073709551615,
        .signed (-9223372036854775808), .text "é", .prefixed [3], .double ⟨0x7ff80000000000ab⟩].flatMap Item.write ++
      [5]) =
    .ok [.byte 7, .raw [1, 2], .varint 18446744073709551615, .signed (-9223372036854775808), .text "é", .prefixed [3],
      .double ⟨0x7ff80000000000ab⟩] [5] := by
  refine (readAll_write ?_ "" []).1 [5]
  exact .cons (.byte 7) (.cons (.raw [1, 2]) (.cons (.varint (by decide)) (.cons (.signed _) (.cons (.text (by decide))
    (.cons (.prefixed (by decide)) (.cons (.double _) .nil))))))

end EntityGraph.Wire
