import JarRemap.Proofs.ClassFile.Format

/-!
# Encoding as a normal form

A class file may spell its texts with groups that are longer than needed. Decoding and encoding such
a file shortens these groups and does nothing else, and doing it once is enough.
-/

namespace JarRemap

open Text

namespace Constant

/-- The encoded text of a constant that holds one, behind its tag and its length. -/
def payload? (spelling : Constant × Bytes) : Option Bytes :=
  if spelling.1.tag? = some 1 then some (spelling.2.drop 3) else none

/-- A payload before and after: text is encoded anew, and bytes without a text stay. -/
def Rewritten (old new : Bytes) : Prop :=
  (∀ text, ModifiedUtf8.decodeLenient old = .ok (some text) → new = ModifiedUtf8.encode text) ∧
    (ModifiedUtf8.decodeLenient old = .ok none → new = old)

private theorem payload?_eq_some_iff (constant : Constant) (bytes payload : Bytes) :
    payload? (constant, bytes) = some payload ↔
      constant.tag? = some 1 ∧ bytes.drop 3 = payload := by
  rw [payload?, Option.ite_none_right_eq_some, Option.some.injEq]

/-- A constant that holds text is what its payload is read as. -/
private theorem read_of_spelled {constant : Constant} {bytes : Bytes}
    (spelled : constant.Spelled bytes) (isText : constant.tag? = some 1) :
    ofUtf8Bytes (bytes.drop 3) = .ok constant := by
  obtain ⟨tag, body, -, spelled, rfl⟩ := spelled
  cases constant with
  | utf8 text =>
    obtain ⟨payload, ⟨length, -, rfl⟩, read⟩ := spelled
    exact read
  | rawUtf8 kept =>
    obtain ⟨payload, ⟨length, -, rfl⟩, read⟩ := spelled
    exact read
  | _ => simp [tag?] at isText

private theorem rewritten_of_write {constant : Constant} {old new : Bytes}
    (spelled : constant.Spelled old) (isText : constant.tag? = some 1)
    (written : constant.write = .ok new) : Rewritten (old.drop 3) (new.drop 3) := by
  have read := read_of_spelled spelled isText
  have usable := usable_of_spelled spelled
  obtain ⟨tag, body, -, writes, rfl⟩ := (write_ok_iff usable new).mp written
  -- The payload tells which of the two constants with text this is.
  constructor
  · intro text here
    have same := (ofUtf8Bytes_text_iff _ text).mpr here
    rw [read] at same
    obtain rfl := Except.ok.inj same
    obtain ⟨length, -, rfl⟩ := (writeText_ok_iff _ _).mp writes
    rfl
  · intro missing
    have same := (ofUtf8Bytes_raw_iff _ (old.drop 3)).mpr ⟨rfl, missing⟩
    rw [read] at same
    obtain rfl := Except.ok.inj same
    obtain ⟨length, -, rfl⟩ := (writeText_ok_iff _ _).mp writes
    rfl

theorem rewritten_payloads {constants : List Constant} {parts others : List Bytes}
    (spelled : List.Forall₂ Spelled constants parts)
    (written : List.Forall₂ (fun constant part => constant.write = .ok part) constants others) :
    List.Forall₂ Rewritten ((constants.zip parts).filterMap payload?)
      ((constants.zip others).filterMap payload?) := by
  induction spelled generalizing others with
  | nil =>
    cases written
    exact .nil
  | @cons constant part constants parts first _ ih =>
    obtain ⟨other, others, writes, rest, rfl⟩ := List.forall₂_cons_left_iff.mp written
    rw [List.zip_cons_cons, List.zip_cons_cons]
    by_cases isText : constant.tag? = some 1
    · have old := (payload?_eq_some_iff constant part _).mpr ⟨isText, rfl⟩
      have new := (payload?_eq_some_iff constant other _).mpr ⟨isText, rfl⟩
      rw [List.filterMap_cons_some old, List.filterMap_cons_some new]
      exact .cons (rewritten_of_write first isText writes) (ih rest)
    · have none : ∀ bytes, payload? (constant, bytes) = none := fun bytes => if_neg isText
      rw [List.filterMap_cons_none (none part), List.filterMap_cons_none (none other)]
      exact ih rest

/-- What is written for constants spells them too. -/
theorem respelled {constants : List Constant} {parts others : List Bytes}
    (spelled : List.Forall₂ Spelled constants parts)
    (written : List.Forall₂ (fun constant part => constant.write = .ok part) constants others) :
    List.Forall₂ Spelled constants others := by
  induction spelled generalizing others with
  | nil =>
    cases written
    exact .nil
  | @cons constant part constants parts first _ ih =>
    obtain ⟨other, others, writes, rest, rfl⟩ := List.forall₂_cons_left_iff.mp written
    have again := spelled_of_write (usable_of_spelled first) (kept_of_spelled first) writes
    exact .cons again (ih rest)

/-- It is the same to ask for short groups of all texts and of all payloads that have a text. -/
theorem shortest_payloads_iff {constants : List Constant} {parts : List Bytes}
    (spelled : List.Forall₂ Spelled constants parts) :
    (∀ text part, (utf8 text, part) ∈ constants.zip parts → ModifiedUtf8.Shortest (part.drop 3)) ↔
      ∀ payload ∈ (constants.zip parts).filterMap payload?, ∀ text,
        ModifiedUtf8.decodeLenient payload = .ok (some text) → ModifiedUtf8.Shortest payload := by
  have each : ∀ constant part, (constant, part) ∈ constants.zip parts → constant.Spelled part :=
    fun _ _ => (List.forall₂_iff_zip.mp spelled).2
  constructor
  · intro short payload member text here
    obtain ⟨⟨constant, part⟩, found, holds⟩ := List.mem_filterMap.mp member
    obtain ⟨isText, rfl⟩ := (payload?_eq_some_iff constant part payload).mp holds
    have read := read_of_spelled (each _ _ found) isText
    rw [(ofUtf8Bytes_text_iff _ text).mpr here] at read
    obtain rfl := Except.ok.inj read
    exact short text part found
  · intro short text part found
    have read := read_of_spelled (each _ _ found) rfl
    refine short _ (List.mem_filterMap.mpr ⟨_, found, ?_⟩) text ((ofUtf8Bytes_text_iff _ text).mp read)
    exact (payload?_eq_some_iff _ part _).mpr ⟨rfl, rfl⟩

end Constant

namespace ClassFile

open Constant

/-- The encoded texts of a class file, in order. -/
def payloads (bytes : Bytes) : List Bytes := (spellings bytes).filterMap payload?

/-- A class that was read is written in as many bytes or fewer, and these are read as the same class.
Only payloads that have a text are written in another way than they were read, and only if they
were spelled with a group longer than needed. -/
theorem encode_normal (bytes : Bytes) (file : ClassFile) (decoded : decode bytes = .ok file) :
    ∃ written, file.encode = .ok written ∧ written.length ≤ bytes.length ∧
      decode written = .ok file ∧
      (written = bytes ↔ ∀ payload ∈ payloads bytes, ∀ text,
        ModifiedUtf8.decodeLenient payload = .ok (some text) → ModifiedUtf8.Shortest payload) ∧
      List.Forall₂ Rewritten (payloads bytes) (payloads written) := by
  obtain ⟨⟨_, tail, ⟨count, constants, parts, laid, size, spelled, rfl⟩, writes, rfl⟩, checked⟩ :=
    (decode_ok_iff bytes file).mp decoded
  obtain ⟨others, written, shorter, same⟩ := ConstantPool.write_of_spelled_all spelled
  have pool : file.pool.write = .ok (Bytes.ofUInt16 count ++ others.flatten) := by
    rw [laid]
    exact (ConstantPool.write_layout_iff size _).mpr ⟨others, written, rfl⟩
  -- What is written spells the same constants, so the same class is read from it.
  have again := respelled spelled written
  refine ⟨_, (encode_ok_iff file _).mpr ⟨_, tail, pool, writes, rfl⟩, ?_, ?_, ?_, ?_⟩
  · simp only [List.length_append]
    omega
  · exact (decode_ok_iff _ _).mpr
      ⟨⟨_, tail, ⟨count, constants, others, laid, size, again, rfl⟩, writes, rfl⟩, checked⟩
  · rw [List.append_cancel_right_eq, List.append_cancel_left_eq, List.append_cancel_left_eq, same,
      payloads, spellings_eq_zip tail size spelled, shortest_payloads_iff spelled]
  · rw [payloads, payloads, spellings_eq_zip tail size spelled, spellings_eq_zip tail size again]
    exact rewritten_payloads spelled written

/-- A class whose name is spelled with a group too long, beside bytes that have no text. -/
def mixed : Bytes :=
  [0xCA, 0xFE, 0xBA, 0xBE, 0, 0, 0, 52, 0, 4, 1, 0, 2, 0xC1, 0x81, 7, 0, 1, 1, 0, 3, 0xED, 0xA0, 0x80,
    0, 0, 0, 2, 0, 0, 0, 0, 0, 0, 0, 0, 0, 0]

def mixedFile : ClassFile :=
  ⟨0, 52, .ofEntries [.unusable, .utf8 "A", .classRef 1, .rawUtf8 [0xED, 0xA0, 0x80]], ⟨0⟩, 2, 0, [], [],
    [], []⟩

theorem decode_mixed : decode mixed = .ok mixedFile := by decide +kernel

/-- The name loses a byte, and the bytes without a text stay. -/
theorem encode_normal_mixed :
    decode mixed = .ok mixedFile ∧ payloads mixed = [[0xC1, 0x81], [0xED, 0xA0, 0x80]] ∧
      mixedFile.encode.toOption.map payloads = some [[0x41], [0xED, 0xA0, 0x80]] ∧
      ∃ written, mixedFile.encode = .ok written ∧
        written.length ≤ mixed.length ∧ decode written = .ok mixedFile ∧
        (written = mixed ↔ ∀ payload ∈ payloads mixed, ∀ text,
          ModifiedUtf8.decodeLenient payload = .ok (some text) → ModifiedUtf8.Shortest payload) ∧
        List.Forall₂ Rewritten (payloads mixed) (payloads written) :=
  ⟨decode_mixed, by decide +kernel, by decide +kernel, encode_normal mixed mixedFile decode_mixed⟩

end ClassFile

end JarRemap
