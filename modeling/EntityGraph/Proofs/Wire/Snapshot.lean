import EntityGraph.Proofs.Wire.RoundTrip
import EntityGraph.Wire.Snapshot

/-! Snapshots hold records as they are on the wire, compressed or not.

All that is asked of a compression library is that a frame holds the bytes it was made from. -/

namespace EntityGraph

/-- A frame holds exactly the bytes it was made from, and they are handed over to whoever asks for more than there
are. -/
def Compression.Restores (c : Compression) : Prop :=
  ∀ ⦃level bytes frame⦄, c.pack level bytes = .ok frame → ∀ limit, bytes.length < limit →
    c.unpack limit frame = .ok bytes

namespace Snapshot

open Wire

variable {c : Compression} {F : Formulas} {s : Schema} {r : Record} {body : List UInt8}
  {bytes contents frame : List UInt8}

/-- The plain form of a record with the given bytes. -/
theorem encodePlain_eq_ok_iff : encodePlain r = .ok bytes ↔ ∃ body, Wire.encode r = .ok body ∧
    bytes = Limits.plainMagic ++ Limits.formatVersion :: (text r.typeName ++ body) := by
  unfold encodePlain
  cases Wire.encode r with
  | error e => simp [bind, Except.bind]
  | ok body => simp [bind, Except.bind, pure, Except.pure, eq_comm]

/-- A snapshot is the plain form, or a frame of it behind its size. -/
theorem encode_cases {options : Options} (written : encode c options r = .ok bytes) :
    ∃ snapshot, encodePlain r = .ok snapshot ∧ (bytes = snapshot ∨ ∃ level frame, c.pack level snapshot = .ok frame ∧
      bytes = Limits.compressedMagic ++ varint snapshot.length ++ frame) := by
  obtain ⟨snapshot, made, rest⟩ := Except.bind_eq_ok.mp written
  refine ⟨snapshot, made, ?_⟩
  cases chosen : options.level with
  | none =>
    rw [chosen] at rest
    exact .inl (Except.ok.inj rest).symm
  | some level =>
    simp only [chosen, compress] at rest
    -- A library that refuses leaves no snapshot.
    split at rest
    · cases rest
    · exact .inr ⟨level, _, ‹_›, (Except.ok.inj rest).symm⟩

/-- The type is looked up by the name that was written, and the record is read from what follows. -/
theorem run_plain {name : String} (short : name.utf8ByteSize ≤ Limits.textBytes) :
    (plain F s).run (Limits.plainMagic ++ Limits.formatVersion :: (text name ++ body)) = Wire.decode F s name body := by
  have magic : Reader.take 4 "magic" (Limits.plainMagic ++ Limits.formatVersion :: (text name ++ body)) =
      .ok Limits.plainMagic (Limits.formatVersion :: (text name ++ body)) := rfl
  have version : Reader.byte "version" (Limits.formatVersion :: (text name ++ body)) =
      .ok Limits.formatVersion (text name ++ body) := rfl
  have named : Reader.text Limits.textBytes "type_name" (text name ++ body) = .ok name body :=
    (Reader.text_takes _ name (by decide)).run short body
  rw [Reader.run, plain, Reader.bind_eq magic, if_pos rfl, Reader.bind_eq version, if_pos (by decide),
    Reader.bind_eq named, Wire.decode]
  cases s.type? name <;> rfl

/-- Contents of the declared size are taken from a frame. -/
theorem run_decompress (small : contents.length ≤ Limits.snapshotBytes)
    (framed : c.unpack (contents.length + 1) frame = .ok contents) :
    (decompress c).run (varint contents.length ++ frame) = .ok contents := by
  have sized : Reader.length Limits.snapshotBytes "uncompressed_size" (varint contents.length ++ frame) =
      .ok contents.length frame := (Reader.length_takes _ _ (by decide)).run small frame
  have rest : (get : Reader (List UInt8)) frame = .ok frame frame := rfl
  rw [Reader.run, decompress, Reader.bind_eq sized, Reader.bind_eq rest, framed]
  simp only [if_true]
  rfl

/-- The fifth byte tells the two forms apart: it is a version in the one and a mark in the other. -/
theorem take_plain_ne (bytes : List UInt8) :
    (Limits.plainMagic ++ Limits.formatVersion :: bytes).take 5 ≠ Limits.compressedMagic := by
  simp [Limits.plainMagic, Limits.formatVersion, Limits.compressedMagic]

/-- The plain form is read by no library. -/
theorem decode_plain (small : (Limits.plainMagic ++ Limits.formatVersion :: bytes).length ≤ Limits.snapshotBytes) :
    decode c F s (Limits.plainMagic ++ Limits.formatVersion :: bytes) =
      (plain F s).run (Limits.plainMagic ++ Limits.formatVersion :: bytes) := by
  rw [decode, if_neg (by simp [Limits.plainMagic]), if_neg (take_plain_ne _), if_neg (Nat.not_lt.mpr small)]

/-- A frame of the plain form, whoever made it, is read as the plain form is. -/
theorem decode_framed (small : contents.length ≤ Limits.snapshotBytes)
    (framed : c.unpack (contents.length + 1) frame = .ok contents) :
    decode c F s (Limits.compressedMagic ++ varint contents.length ++ frame) = (plain F s).run contents := by
  have size : Limits.compressedMagic.length = 5 := rfl
  rw [List.append_assoc, decode, if_neg (by simp [size]; omega), if_pos (List.take_left' size), List.drop_left' size,
    run_decompress small framed]
  rfl

/-- With a library whose frames hold what they were made from, a snapshot is read as the bytes of its record are, with
the same result, at whatever level it was written or plain. The plain form does not look like a compressed one. -/
theorem decode_agrees (restores : c.Restores) (F : Formulas) (s : Schema) {r : Record} {options : Options}
    {bytes : List UInt8} (written : encode c options r = .ok bytes) :
    ∃ body snapshot, Wire.encode r = .ok body ∧ encode c {} r = .ok snapshot ∧
      snapshot.take 5 ≠ Limits.compressedMagic ∧
      (r.typeName.utf8ByteSize ≤ Limits.textBytes → snapshot.length ≤ Limits.snapshotBytes →
        decode c F s bytes = Wire.decode F s r.typeName body) := by
  obtain ⟨snapshot, made, form⟩ := encode_cases written
  obtain ⟨body, encoded, rfl⟩ := encodePlain_eq_ok_iff.mp made
  refine ⟨body, _, encoded, by rw [encode, made]; rfl, take_plain_ne _, fun short small => ?_⟩
  rw [← run_plain short]
  rcases form with rfl | ⟨level, frame, packed, rfl⟩
  · exact decode_plain small
  · exact decode_framed small (restores packed _ (Nat.lt_succ_self _))

/-- The first bytes of a frame that does not tell the size of its contents: a magic number, no flags and the window of
the usual level. -/
def frameStart : List UInt8 :=
  [0x28, 0xb5, 0x2f, 0xfd, 0x00, 0x58]

/-- A library that packs few bytes at the usual level, into one block that holds them as they are. -/
def storing : Compression where
  pack level bytes :=
    if level = 3 ∧ bytes.length < 64 then .ok (frameStart ++ littleEndian 3 (8 * bytes.length + 1) ++ bytes)
    else .error "Unsupported parameter"
  unpack limit frame :=
    if frame.take 6 = frameStart then .ok ((frame.drop 9).take limit) else .error "Unknown frame descriptor"

/-- The block is handed over as it is. -/
theorem storing_restores : storing.Restores := by
  intro level bytes frame packed limit more
  simp only [storing] at packed
  split at packed
  · cases packed
    have whole : bytes.take limit = bytes := List.take_of_length_le (Nat.le_of_lt more)
    simp [storing, frameStart, littleEndian, whole]
  · cases packed

/-- A day off. -/
def day : Record :=
  event (.value (.text "day")) .absent .absent

/-- The compressed snapshot of the day off: a magic number, the size and the frame. -/
def daySnapshot : List UInt8 :=
  Limits.compressedMagic ++ 18 :: (frameStart ++ [145, 0, 0] ++
    [84, 72, 71, 49, 1, 5, 69, 118, 101, 110, 116, 3, 1, 3, 3, 100, 97, 121])

/-- The day off is read from its compressed snapshot as it is from its own bytes. -/
theorem decode_agrees_day : encode storing ⟨some 3⟩ day = .ok daySnapshot ∧
    (decode storing titleFormulas eventSchema daySnapshot).isOk = true ∧
    ∃ body, Wire.encode day = .ok body ∧
      decode storing titleFormulas eventSchema daySnapshot = Wire.decode titleFormulas eventSchema "Event" body := by
  have written : encode storing ⟨some 3⟩ day = .ok daySnapshot := by decide +kernel
  have small : (encode storing {} day).toOption.all (·.length ≤ Limits.snapshotBytes) = true := by decide +kernel
  obtain ⟨body, snapshot, encoded, plainly, -, agree⟩ :=
    decode_agrees storing_restores titleFormulas eventSchema written
  rw [plainly] at small
  exact ⟨written, by decide +kernel, body, encoded, agree (by decide +kernel) (of_decide_eq_true small)⟩

end Snapshot

end EntityGraph
