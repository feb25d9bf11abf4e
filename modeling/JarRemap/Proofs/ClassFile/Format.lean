import JarRemap.ClassFile.Format
import JarRemap.Proofs.ConstantPool.Format

/-!
# Decoding and encoding class files

Everything behind the constant pool is written exactly as it is read. What decoding a class and
encoding it again does to the bytes is therefore decided by the texts of its pool.
-/

namespace JarRemap

open Cursor

theorem Attribute.format_exact : Attribute.format.Exact :=
  (Format.uint16_exact.pair (Format.block_exact _)).imap _ _ (fun _ => rfl) (fun _ => rfl)

theorem Attribute.listFormat_exact : Attribute.listFormat.Exact :=
  Format.counted_exact _ Attribute.format_exact

theorem Member.format_exact : Member.format.Exact :=
  (Format.uint16_exact.pair (Format.uint16_exact.pair (Format.uint16_exact.pair
    Attribute.listFormat_exact))).imap _ _ (fun _ => rfl) (fun _ => rfl)

theorem Member.listFormat_exact : Member.listFormat.Exact :=
  Format.counted_exact _ Member.format_exact

namespace ClassFile

theorem Tail.format_exact : Tail.format.Exact :=
  (Format.uint16_exact.pair (Format.uint16_exact.pair (Format.uint16_exact.pair
    ((Format.counted_exact _ Format.uint16_exact).pair (Member.listFormat_exact.pair
      (Member.listFormat_exact.pair Attribute.listFormat_exact)))))).imap _ _ (fun _ => rfl)
    (fun _ => rfl)

/-- What stands in front of the constant pool. -/
def header (minor major : UInt16) : Bytes :=
  Bytes.ofUInt32 magic ++ Bytes.ofUInt16 minor ++ Bytes.ofUInt16 major

/-- The bytes that may stand for the class. -/
def Spelled (file : ClassFile) (bytes : Bytes) : Prop :=
  ∃ pool tail, file.pool.Spelled pool ∧ Tail.format.write file.tail = .ok tail ∧
    bytes = header file.minor file.major ++ pool ++ tail

private theorem reads_magic : Reads readMagic (fun _ bytes => bytes = Bytes.ofUInt32 magic) := by
  have checked : ∀ found, Reads
      (if found = magic then return () else throw (.badMagic found) : FaultReader Unit)
      (fun _ rest => found = magic ∧ rest = []) := by
    intro found before value after
    by_cases same : found = magic
    · rw [if_pos same]
      exact (reads_pure () before value after).trans (by simp [same])
    · simp [same, throw, throwThe, MonadExceptOf.throw, StateT.lift, bind, Except.bind]
  refine ((reads_orFault reads_uint32).bind checked).congr fun value bytes => ?_
  constructor
  · rintro ⟨_, _, _, rfl, ⟨rfl, rfl⟩, rfl⟩
    exact List.append_nil _
  · rintro rfl
    exact ⟨magic, _, [], rfl, ⟨rfl, rfl⟩, (List.append_nil _).symm⟩

theorem reads_parts : Reads readParts Spelled := by
  refine (reads_magic.bind fun _ => (reads_orFault reads_uint16).bind fun minor =>
    (reads_orFault reads_uint16).bind fun major => ConstantPool.reads_pool.bind fun pool =>
      (reads_orFault Tail.format_exact).bind fun tail =>
        reads_pure (ofParts minor major pool tail)).congr fun file bytes => ?_
  constructor
  · rintro ⟨_, _, _, rfl, ⟨minor, _, _, rfl, ⟨major, _, _, rfl, ⟨pool, front, _, spelled,
      ⟨tail, back, _, written, ⟨rfl, rfl⟩, rfl⟩, rfl⟩, rfl⟩, rfl⟩, rfl⟩
    exact ⟨front, back, spelled, written, by simp [header, ofParts]⟩
  · rintro ⟨front, back, spelled, written, rfl⟩
    refine ⟨(), _, _, rfl, ⟨file.minor, _, _, rfl, ⟨file.major, _, _, rfl, ⟨file.pool, front, _,
      spelled, ⟨file.tail, back, [], written, ⟨rfl, rfl⟩, rfl⟩, rfl⟩, rfl⟩, rfl⟩, ?_⟩
    simp [header]

/-- Bytes are decoded to a class exactly if they spell it and its names can be read. -/
theorem decode_ok_iff (bytes : Bytes) (file : ClassFile) :
    decode bytes = .ok file ↔ file.Spelled bytes ∧ file.checkNames = .ok () := by
  -- All bytes spell the class if reading it leaves none of them.
  have whole : file.Spelled bytes ↔ ∃ offset, readParts (start bytes) = .ok (file, ⟨offset, []⟩) := by
    constructor
    · intro spelled
      exact ⟨bytes.length, (reads_parts _ _ _).mpr ⟨bytes, spelled, by simp [start], by simp [start]⟩⟩
    · rintro ⟨offset, taken⟩
      obtain ⟨_, spelled, passed⟩ := (reads_parts _ _ _).mp taken
      obtain rfl : bytes = _ := passed.rest.trans (List.append_nil _)
      exact spelled
  rw [whole, decode]
  cases readParts (start bytes) with
  | error fault => simp [bind, Except.bind]
  | ok found =>
    obtain ⟨other, offset, rest⟩ := found
    cases rest with
    | cons byte rest => simp [bind, Except.bind, throw, throwThe, MonadExceptOf.throw]
    | nil =>
      simp only [bind, Except.bind, pure, Except.pure, List.isEmpty_nil, Bool.not_true,
        Bool.false_eq_true, if_false]
      cases checked : other.checkNames with
      | error fault =>
        simp only [reduceCtorEq, false_iff]
        rintro ⟨⟨_, same⟩, sound⟩
        obtain rfl := (Prod.mk.inj (Except.ok.inj same)).1
        cases checked.symm.trans sound
      | ok _ =>
        constructor
        · intro same
          obtain rfl := Except.ok.inj same
          exact ⟨⟨offset, rfl⟩, checked⟩
        · rintro ⟨⟨_, same⟩, -⟩
          obtain rfl := (Prod.mk.inj (Except.ok.inj same)).1
          rfl

theorem encode_ok_iff (file : ClassFile) (bytes : Bytes) :
    file.encode = .ok bytes ↔ ∃ pool tail, file.pool.write = .ok pool ∧
      Tail.format.write file.tail = .ok tail ∧
      bytes = header file.minor file.major ++ pool ++ tail := by
  rw [encode, write]
  cases file.pool.write with
  | error oversize => simp [bind, Except.bind, Except.mapError]
  | ok pool =>
    cases Tail.format.write file.tail with
    | error oversize => simp [bind, Except.bind, Except.mapError]
    | ok tail => simp [bind, Except.bind, pure, Except.pure, Except.mapError, header, eq_comm]

/-- The constants of a class file, each with the bytes it was read from. -/
def spellings (bytes : Bytes) : List (Constant × Bytes) :=
  match Cursor.uint16 ⟨8, bytes.drop 8⟩ with
  | .ok (count, cursor) => ConstantPool.spellings count.toNat count.toNat 1 cursor
  | .error _ => []

theorem spellings_eq_zip {minor major count : UInt16} {constants : List Constant}
    {parts : List Bytes} (tail : Bytes)
    (size : (ConstantPool.layout constants).length = count.toNat)
    (spelled : List.Forall₂ Constant.Spelled constants parts) :
    spellings (header minor major ++ (Bytes.ofUInt16 count ++ parts.flatten) ++ tail) =
      constants.zip parts := by
  have behind : (header minor major ++ (Bytes.ofUInt16 count ++ parts.flatten) ++ tail).drop 8 =
      Bytes.ofUInt16 count ++ (parts.flatten ++ tail) := by
    simp [header, Bytes.ofUInt32, Bytes.ofUInt16]
  have counted : Cursor.uint16 ⟨8, Bytes.ofUInt16 count ++ (parts.flatten ++ tail)⟩ =
      .ok (count, ⟨10, parts.flatten ++ tail⟩) :=
    (reads_uint16 _ _ _).mpr ⟨_, rfl, rfl, rfl⟩
  have passed : Passed parts.flatten ⟨10, parts.flatten ++ tail⟩ ⟨10 + parts.flatten.length, tail⟩ :=
    ⟨rfl, rfl⟩
  rw [spellings, behind, counted]
  refine ConstantPool.spellings_eq_zip spelled passed (by omega) ?_
  rw [← size, ConstantPool.layout, List.length_cons, Nat.add_comm]

/-- A class that was read can be written, and the bytes are those it was read from unless one of its
texts was spelled with a group longer than needed. -/
theorem encode_decoded (bytes : Bytes) (file : ClassFile) (decoded : decode bytes = .ok file) :
    ∃ written, file.encode = .ok written ∧
      (written = bytes ↔ ∀ text spelling, (Constant.utf8 text, spelling) ∈ spellings bytes →
        Text.ModifiedUtf8.Shortest (spelling.drop 3)) := by
  obtain ⟨⟨_, tail, ⟨count, constants, parts, laid, size, spelled, rfl⟩, writes, rfl⟩, -⟩ :=
    (decode_ok_iff bytes file).mp decoded
  obtain ⟨pool, written, same⟩ := ConstantPool.write_of_spelled_layout size spelled
  refine ⟨_, (encode_ok_iff file _).mpr ⟨pool, tail, laid ▸ written, writes, rfl⟩, ?_⟩
  rw [spellings_eq_zip tail size spelled, ← same, List.append_cancel_right_eq,
    List.append_cancel_left_eq]

/-- A class called `A`, with nothing else in it. -/
def bare : ClassFile :=
  ⟨0, 52, .ofEntries [.unusable, .utf8 "A", .classRef 1], ⟨0⟩, 2, 0, [], [], [], []⟩

/-- The class with its name spelled with a group of two bytes where one is enough. -/
def overlong : Bytes :=
  [0xCA, 0xFE, 0xBA, 0xBE, 0, 0, 0, 52, 0, 3, 1, 0, 2, 0xC1, 0x81, 7, 0, 1, 0, 0, 0, 2, 0, 0, 0, 0,
    0, 0, 0, 0, 0, 0]

theorem encode_decoded_overlong :
    decode overlong = .ok bare ∧ ∃ written, bare.encode = .ok written ∧
      (written = overlong ↔ ∀ text spelling, (Constant.utf8 text, spelling) ∈ spellings overlong →
        Text.ModifiedUtf8.Shortest (spelling.drop 3)) :=
  ⟨by decide +kernel, encode_decoded overlong bare (by decide +kernel)⟩

/-- A byte string may be accepted that encoding does not give back. -/
theorem overlong_not_restored :
    ∃ file written, decode overlong = .ok file ∧ file.encode = .ok written ∧ written ≠ overlong := by
  refine ⟨bare, [0xCA, 0xFE, 0xBA, 0xBE, 0, 0, 0, 52, 0, 3, 1, 0, 1, 0x41, 7, 0, 1, 0, 0, 0, 2,
    0, 0, 0, 0, 0, 0, 0, 0, 0, 0], ?_, ?_, ?_⟩
  · decide +kernel
  · decide +kernel
  · decide

end ClassFile

end JarRemap
