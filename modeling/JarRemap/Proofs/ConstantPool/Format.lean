import JarRemap.ConstantPool.Format
import JarRemap.Proofs.ConstantPool.Edit
import JarRemap.Proofs.Format
import JarRemap.Proofs.Text.ModifiedUtf8

/-!
# The bytes of a constant pool

Which bytes are read as which constants, and what is written for these. Both differ only for texts:
a text may be spelled with groups that are longer than needed, and is written with the shortest.
-/

namespace JarRemap

open Cursor Text

theorem reads_orFault {α : Type} {reader : Reader α} {spells : α → Bytes → Prop}
    (reads : Reads reader spells) : Reads (orFault reader) spells := by
  intro before value after
  rw [← reads before value after, orFault]
  cases reader before with
  | error shortage => simp [Except.mapError]
  | ok found => simp [Except.mapError]

namespace Constant

/-- A length in two bytes, and as many bytes. -/
def Payload (payload bytes : Bytes) : Prop :=
  ∃ length, payload.length = UInt16.toNat length ∧ bytes = Bytes.ofUInt16 length ++ payload

/-- The bytes that may follow the tag of the constant. -/
def SpelledBody : Constant → Bytes → Prop
  | utf8 text, bytes => ∃ payload, Payload payload bytes ∧ ofUtf8Bytes payload = .ok (utf8 text)
  | rawUtf8 kept, bytes => ∃ payload, Payload payload bytes ∧ ofUtf8Bytes payload = .ok (rawUtf8 kept)
  | constant, bytes => constant.writeBody = .ok bytes

/-- The bytes that may stand for the constant. -/
def Spelled (constant : Constant) (bytes : Bytes) : Prop :=
  ∃ tag body, constant.tag? = some tag ∧ constant.SpelledBody body ∧ bytes = tag :: body

/-! ## Reading -/

theorem ofUtf8Bytes_text_iff (payload : Bytes) (text : String) :
    ofUtf8Bytes payload = .ok (utf8 text) ↔
      ModifiedUtf8.decodeLenient payload = .ok (some text) := by
  rw [ofUtf8Bytes]
  cases ModifiedUtf8.decodeLenient payload with
  | error offset => simp
  | ok found => cases found <;> simp

theorem ofUtf8Bytes_raw_iff (payload kept : Bytes) :
    ofUtf8Bytes payload = .ok (rawUtf8 kept) ↔
      kept = payload ∧ ModifiedUtf8.decodeLenient payload = .ok none := by
  rw [ofUtf8Bytes]
  cases ModifiedUtf8.decodeLenient payload with
  | error offset => simp
  | ok found => cases found <;> simp [eq_comm]

private theorem ofUtf8Bytes_tag {payload : Bytes} {constant : Constant}
    (read : ofUtf8Bytes payload = .ok constant) :
    (∃ text, constant = utf8 text) ∨ ∃ kept, constant = rawUtf8 kept := by
  rw [ofUtf8Bytes] at read
  split at read
  · exact .inl ⟨_, (Except.ok.inj read).symm⟩
  · exact .inr ⟨_, (Except.ok.inj read).symm⟩
  · cases read

private theorem tag_one {constant : Constant} (tagged : constant.tag? = some 1) :
    (∃ text, constant = utf8 text) ∨ ∃ kept, constant = rawUtf8 kept := by
  cases constant <;> simp [tag?] at tagged ⊢

private theorem spelledBody_text_iff {constant : Constant} (bytes : Bytes)
    (text : (∃ text, constant = utf8 text) ∨ ∃ kept, constant = rawUtf8 kept) :
    constant.SpelledBody bytes ↔
      ∃ payload, Payload payload bytes ∧ ofUtf8Bytes payload = .ok constant := by
  rcases text with ⟨text, rfl⟩ | ⟨kept, rfl⟩ <;> rfl

private theorem reads_ofUtf8Bytes (payload : Bytes) :
    Reads (liftM (ofUtf8Bytes payload) : FaultReader Constant)
      (fun constant rest => ofUtf8Bytes payload = .ok constant ∧ rest = []) := by
  intro before constant after
  cases ofUtf8Bytes payload with
  | error fault => simp [liftM, monadLift, MonadLift.monadLift, StateT.lift, bind, Except.bind]
  | ok found =>
    simp [liftM, monadLift, MonadLift.monadLift, StateT.lift, bind, Except.bind, pure, Except.pure,
      eq_comm]

private theorem reads_utf8 : Reads readUtf8 (fun constant body =>
    constant.tag? = some 1 ∧ constant.SpelledBody body) := by
  refine ((reads_orFault reads_uint16).bind fun length =>
    (reads_orFault (reads_take length.toNat)).bind reads_ofUtf8Bytes).congr fun constant body => ?_
  constructor
  · rintro ⟨length, _, _, rfl, ⟨_, payload, _, ⟨rfl, fits⟩, ⟨read, rfl⟩, rfl⟩, rfl⟩
    have text := ofUtf8Bytes_tag read
    constructor
    · rcases text with ⟨_, rfl⟩ | ⟨_, rfl⟩ <;> rfl
    · exact (spelledBody_text_iff _ text).mpr ⟨payload, ⟨length, fits, by simp⟩, read⟩
  · rintro ⟨tagged, spelled⟩
    obtain ⟨payload, ⟨length, fits, rfl⟩, read⟩ := (spelledBody_text_iff _ (tag_one tagged)).mp spelled
    exact ⟨length, _, _, rfl, ⟨payload, payload, [], ⟨rfl, fits⟩, ⟨read, rfl⟩, by simp⟩, rfl⟩

/-- A constant that is made of what one reader reads. -/
private theorem reads_built {α : Type} {reader : Reader α} {spells : α → Bytes → Prop}
    (reads : Reads reader spells) (build : α → Constant) {tag : UInt8}
    (tagged : ∀ constant, constant.tag? = some tag ↔ ∃ value, build value = constant)
    (body : ∀ value bytes, (build value).SpelledBody bytes ↔ spells value bytes) :
    Reads (orFault (build <$> reader)) (fun constant bytes =>
      constant.tag? = some tag ∧ constant.SpelledBody bytes) := by
  refine (reads_orFault (reads.map build)).congr fun constant bytes => ?_
  rw [tagged]
  constructor
  · rintro ⟨value, spelled, rfl⟩
    exact ⟨⟨value, rfl⟩, (body value bytes).mpr spelled⟩
  · rintro ⟨⟨value, rfl⟩, spelled⟩
    exact ⟨value, (body value bytes).mp spelled, rfl⟩

private theorem reads_index (build : Index → Constant) {tag : UInt8}
    (tagged : ∀ constant, constant.tag? = some tag ↔ ∃ index, build index = constant)
    (body : ∀ index bytes, (build index).SpelledBody bytes ↔ .ok (Bytes.ofUInt16 index) =
      (.ok bytes : Written)) :
    Reads (orFault (build <$> uint16)) (fun constant bytes =>
      constant.tag? = some tag ∧ constant.SpelledBody bytes) :=
  reads_built reads_uint16 build tagged fun index bytes => by
    rw [body, Except.ok.injEq, eq_comm]

private theorem reads_pair (build : Index → Index → Constant) {tag : UInt8}
    (tagged : ∀ constant, constant.tag? = some tag ↔ ∃ first second, build first second = constant)
    (body : ∀ first second bytes, (build first second).SpelledBody bytes ↔
      .ok (Bytes.ofUInt16 first ++ Bytes.ofUInt16 second) = (.ok bytes : Written)) :
    Reads (readPair build) (fun constant bytes =>
      constant.tag? = some tag ∧ constant.SpelledBody bytes) := by
  refine (reads_orFault (reads_uint16.bind fun first => reads_uint16.bind fun second =>
    reads_pure (build first second))).congr fun constant bytes => ?_
  rw [tagged]
  constructor
  · rintro ⟨first, _, _, rfl, ⟨second, _, _, rfl, ⟨rfl, rfl⟩, rfl⟩, rfl⟩
    exact ⟨⟨first, second, rfl⟩, (body first second _).mpr (by simp)⟩
  · rintro ⟨⟨first, second, rfl⟩, spelled⟩
    obtain rfl := Except.ok.inj ((body first second bytes).mp spelled)
    exact ⟨first, _, _, rfl, ⟨second, _, [], rfl, ⟨rfl, rfl⟩, rfl⟩, by simp⟩

theorem reads_body (tag : UInt8) (index : Index) :
    Reads (readBody tag index) (fun constant bytes =>
      constant.tag? = some tag ∧ constant.SpelledBody bytes) := by
  -- One case for each tag, in the order of the reader. A number is read as its bits, which each
  -- signed number has.
  unfold readBody
  split
  · exact reads_utf8
  · refine reads_built reads_uint32 _ (fun constant => ?_) fun bits bytes => ?_
    · cases constant <;> simp [tag?]
      next value => exact ⟨value.toUInt32, value.toInt32_toUInt32⟩
    · simp [SpelledBody, writeBody, eq_comm]
  · refine reads_built reads_uint32 _ (fun constant => ?_) fun bits bytes => ?_
    · cases constant <;> simp [tag?]
    · simp [SpelledBody, writeBody, eq_comm]
  · refine reads_built reads_uint64 _ (fun constant => ?_) fun bits bytes => ?_
    · cases constant <;> simp [tag?]
      next value => exact ⟨value.toUInt64, value.toInt64_toUInt64⟩
    · simp [SpelledBody, writeBody, eq_comm]
  · refine reads_built reads_uint64 _ (fun constant => ?_) fun bits bytes => ?_
    · cases constant <;> simp [tag?]
    · simp [SpelledBody, writeBody, eq_comm]
  · exact reads_index _ (fun constant => by cases constant <;> simp [tag?]) fun _ _ => Iff.rfl
  · exact reads_index _ (fun constant => by cases constant <;> simp [tag?]) fun _ _ => Iff.rfl
  · exact reads_pair _ (fun constant => by cases constant <;> simp [tag?]) fun _ _ _ => Iff.rfl
  · exact reads_pair _ (fun constant => by cases constant <;> simp [tag?]) fun _ _ _ => Iff.rfl
  · exact reads_pair _ (fun constant => by cases constant <;> simp [tag?]) fun _ _ _ => Iff.rfl
  · exact reads_pair _ (fun constant => by cases constant <;> simp [tag?]) fun _ _ _ => Iff.rfl
  · refine (reads_orFault (reads_byte.bind fun kind => reads_uint16.bind fun reference =>
      reads_pure (methodHandle kind reference))).congr fun constant bytes => ?_
    constructor
    · rintro ⟨kind, _, _, rfl, ⟨reference, _, _, rfl, ⟨rfl, rfl⟩, rfl⟩, rfl⟩
      exact ⟨rfl, by simp [SpelledBody, writeBody]⟩
    · rintro ⟨tagged, spelled⟩
      cases constant <;> simp [tag?] at tagged
      next kind reference =>
        obtain rfl := Except.ok.inj spelled
        exact ⟨kind, _, _, rfl, ⟨reference, _, [], rfl, ⟨rfl, rfl⟩, rfl⟩, by simp⟩
  · exact reads_index _ (fun constant => by cases constant <;> simp [tag?]) fun _ _ => Iff.rfl
  · exact reads_pair _ (fun constant => by cases constant <;> simp [tag?]) fun _ _ _ => Iff.rfl
  · exact reads_pair _ (fun constant => by cases constant <;> simp [tag?]) fun _ _ _ => Iff.rfl
  · exact reads_index _ (fun constant => by cases constant <;> simp [tag?]) fun _ _ => Iff.rfl
  · exact reads_index _ (fun constant => by cases constant <;> simp [tag?]) fun _ _ => Iff.rfl
  next unknown =>
    -- No constant has another tag, so nothing is read and nothing is spelled.
    intro before constant after
    constructor
    · intro taken
      cases taken
    · rintro ⟨bytes, ⟨tagged, -⟩, -⟩
      cases constant <;> simp [tag?] at tagged <;> simp_all

theorem reads_constant (index : Index) : Reads (Constant.read index) Spelled := by
  refine ((reads_orFault reads_byte).bind fun tag => reads_body tag index).congr
    fun constant bytes => ?_
  constructor
  · rintro ⟨tag, _, body, rfl, ⟨tagged, spelled⟩, rfl⟩
    exact ⟨tag, body, tagged, spelled, rfl⟩
  · rintro ⟨tag, body, tagged, spelled, rfl⟩
    exact ⟨tag, [tag], body, rfl, ⟨tagged, spelled⟩, rfl⟩

/-! ## Writing -/

theorem writeText_ok_iff (payload bytes : Bytes) :
    writeText payload = .ok bytes ↔ Payload payload bytes := by
  simp only [writeText, Payload, ← Format.count16_ok_iff "Utf8 constant"]
  cases Format.count16 "Utf8 constant" payload.length with
  | error oversize => simp [bind, Except.bind]
  | ok length => simp [bind, Except.bind, pure, Except.pure, eq_comm]

theorem write_ok_iff {constant : Constant} (usable : constant ≠ unusable) (bytes : Bytes) :
    constant.write = .ok bytes ↔
      ∃ tag body, constant.tag? = some tag ∧ constant.writeBody = .ok body ∧ bytes = tag :: body := by
  rw [write]
  cases tagged : constant.tag? with
  | none => cases constant <;> simp [tag?] at tagged usable
  | some tag =>
    cases constant.writeBody with
    | error oversize => simp [Functor.map, Except.map]
    | ok body => simp [Functor.map, Except.map, eq_comm]

private theorem writeBody_of_spelledBody {constant : Constant} {body : Bytes}
    (other : ∀ text, constant ≠ utf8 text) (spelled : constant.SpelledBody body) :
    constant.writeBody = .ok body := by
  cases constant <;> try exact spelled
  next text => exact absurd rfl (other text)
  next kept =>
    obtain ⟨payload, framed, read⟩ := spelled
    obtain ⟨rfl, -⟩ := (ofUtf8Bytes_raw_iff payload kept).mp read
    exact (writeText_ok_iff _ _).mpr framed

/-- What was read as a constant can be written, in as many bytes or fewer. It is written as it was
read, unless it is a text that was spelled with a group longer than needed. -/
theorem write_of_spelled {constant : Constant} {bytes : Bytes} (spelled : constant.Spelled bytes) :
    ∃ written, constant.write = .ok written ∧ written.length ≤ bytes.length ∧
      (written = bytes ↔ ∀ text, constant = utf8 text → ModifiedUtf8.Shortest (bytes.drop 3)) := by
  obtain ⟨tag, body, tagged, spelled, rfl⟩ := spelled
  have usable : constant ≠ unusable := by rintro rfl; cases tagged
  -- Texts are the only constants that can be spelled in more than one way.
  by_cases isText : ∃ text, constant = utf8 text
  · obtain ⟨text, rfl⟩ := isText
    obtain ⟨payload, ⟨length, fits, rfl⟩, read⟩ := spelled
    rw [ofUtf8Bytes_text_iff] at read
    have shorter := ModifiedUtf8.encode_length_le payload text read
    have bound := length.toNat_lt
    -- The text is not longer than what it was read from, so its length fits as well.
    have short : (ModifiedUtf8.encode text).length =
        (UInt16.ofNat (ModifiedUtf8.encode text).length).toNat := by
      rw [UInt16.toNat_ofNat', Nat.mod_eq_of_lt (by omega)]
    refine ⟨_, (write_ok_iff usable _).mpr
      ⟨tag, _, tagged, (writeText_ok_iff _ _).mpr ⟨_, short, rfl⟩, rfl⟩, ?_, ?_⟩
    · simpa [Bytes.ofUInt16] using shorter
    · have rest : (tag :: (Bytes.ofUInt16 length ++ payload)).drop 3 = payload := rfl
      rw [rest, ← ModifiedUtf8.encode_eq_iff payload text read]
      constructor
      · intro same _ _
        exact congrArg (List.drop 3) same
      · intro same
        rw [same text rfl, fits, UInt16.ofNat_toNat]
  · have other : ∀ text, constant ≠ utf8 text := fun text same => isText ⟨text, same⟩
    refine ⟨tag :: body, (write_ok_iff usable _).mpr
      ⟨tag, body, tagged, writeBody_of_spelledBody other spelled, rfl⟩, Nat.le_refl _, ?_⟩
    exact ⟨fun _ text same => absurd same (other text), fun _ => rfl⟩

/-- Bytes that were kept have no text, as otherwise they would be read as that text. -/
def Kept (constant : Constant) : Prop :=
  ∀ bytes, constant = rawUtf8 bytes → ModifiedUtf8.decodeLenient bytes = .ok none

theorem spelled_of_write {constant : Constant} {bytes : Bytes} (usable : constant ≠ unusable)
    (kept : constant.Kept) (writes : constant.write = .ok bytes) : constant.Spelled bytes := by
  obtain ⟨tag, body, tagged, written, rfl⟩ := (write_ok_iff usable bytes).mp writes
  refine ⟨tag, body, tagged, ?_, rfl⟩
  cases constant <;> try exact written
  next text =>
    exact ⟨_, (writeText_ok_iff _ _).mp written,
      (ofUtf8Bytes_text_iff _ _).mpr (ModifiedUtf8.decodeLenient_encode text)⟩
  next raw =>
    exact ⟨_, (writeText_ok_iff _ _).mp written,
      (ofUtf8Bytes_raw_iff _ _).mpr ⟨rfl, kept raw rfl⟩⟩

theorem usable_of_spelled {constant : Constant} {bytes : Bytes} (spelled : constant.Spelled bytes) :
    constant ≠ unusable := by
  rintro rfl
  obtain ⟨_, _, tagged, -⟩ := spelled
  cases tagged

theorem kept_of_spelled {constant : Constant} {bytes : Bytes} (spelled : constant.Spelled bytes) :
    constant.Kept := by
  rintro kept rfl
  obtain ⟨_, _, _, ⟨payload, _, read⟩, _⟩ := spelled
  obtain ⟨rfl, none⟩ := (ofUtf8Bytes_raw_iff payload kept).mp read
  exact none

end Constant

namespace ConstantPool

open Constant

/-- The slots of a pool that holds the constants in order. -/
def layout (constants : List Constant) : List Constant :=
  .unusable :: constants.flatMap Constant.slots

theorem slots_length_pos (constant : Constant) : 0 < constant.slots.length := by
  rw [slots]
  split <;> simp

/-- The bytes that may stand for the pool. -/
def Spelled (pool : ConstantPool) (bytes : Bytes) : Prop :=
  ∃ count constants parts, pool = ofEntries (layout constants) ∧
    (layout constants).length = UInt16.toNat count ∧
    List.Forall₂ Constant.Spelled constants parts ∧ bytes = Bytes.ofUInt16 count ++ parts.flatten

/-! ## Reading -/

private theorem nothing_behind {count : Nat} {entries all : Array Constant}
    {constants : List Constant} (full : count ≤ entries.size) (size : all.size = count)
    (slots : all.toList = entries.toList ++ constants.flatMap Constant.slots) :
    constants = [] ∧ all = entries := by
  have lengths := congrArg List.length slots
  rw [List.length_append, Array.length_toList, Array.length_toList] at lengths
  cases constants with
  | nil => exact ⟨rfl, Array.toList_inj.mp (by simpa using slots)⟩
  | cons constant others =>
    have takes := slots_length_pos constant
    rw [List.flatMap_cons, List.length_append] at lengths
    omega

private theorem readOnto_full_iff {count : Nat} {entries all : Array Constant}
    (full : count ≤ entries.size) (before after : Cursor) :
    (entries = all ∧ before = after) ∧ all.size = count ↔
      ∃ constants parts, all.toList = entries.toList ++ constants.flatMap slots ∧
        all.size = count ∧ List.Forall₂ Constant.Spelled constants parts ∧
        Passed parts.flatten before after := by
  constructor
  · rintro ⟨⟨rfl, rfl⟩, size⟩
    exact ⟨[], [], by simp, size, .nil, by simp⟩
  · rintro ⟨constants, parts, slots, size, spelled, passed⟩
    obtain ⟨rfl, rfl⟩ := nothing_behind full size slots
    cases spelled
    exact ⟨⟨rfl, ((passed_nil before after).mp passed).symm⟩, size⟩

/-- The slots that are read are those of the constants that are spelled behind one another. -/
theorem readOnto_ok_iff (count fuel : Nat) (entries all : Array Constant) (before after : Cursor)
    (enough : count ≤ entries.size + fuel) :
    readOnto count fuel entries before = .ok (all, after) ∧ all.size = count ↔
      ∃ constants parts, all.toList = entries.toList ++ constants.flatMap slots ∧
        all.size = count ∧ List.Forall₂ Constant.Spelled constants parts ∧
        Passed parts.flatten before after := by
  -- Every constant takes a slot, so there is fuel for as long as slots are lacking.
  induction fuel generalizing entries before with
  | zero =>
    rw [← readOnto_full_iff (by omega)]
    simp [readOnto]
  | succ fuel ih =>
    simp only [readOnto]
    split
    next lacking =>
      constructor
      · rintro ⟨taken, size⟩
        split at taken
        next constant next first =>
          obtain ⟨bytes, spelled, passed⟩ := (reads_constant _ before constant next).mp first
          have takes := slots_length_pos constant
          obtain ⟨constants, parts, slots, -, others, behind⟩ :=
            (ih _ next (by rw [size_append]; omega)).mp ⟨taken, size⟩
          refine ⟨constant :: constants, bytes :: parts, ?_, size, .cons spelled others, ?_⟩
          · simpa using slots
          · exact (passed_append _ _ _ _).mpr ⟨next, passed, behind⟩
        · cases taken
      · rintro ⟨constants, parts, slots, size, spelled, passed⟩
        cases spelled with
        -- Without another constant the slots would be full already.
        | nil =>
          have same := congrArg List.length slots
          simp at same
          omega
        | @cons constant bytes constants parts first others =>
          obtain ⟨next, passed, behind⟩ := (passed_append bytes parts.flatten before after).mp passed
          have takes := slots_length_pos constant
          rw [(reads_constant _ before constant next).mpr ⟨bytes, first, passed⟩]
          refine (ih _ next (by rw [size_append]; omega)).mpr
            ⟨constants, parts, ?_, size, others, behind⟩
          simpa using slots
    next full =>
      rw [← readOnto_full_iff (by omega)]
      simp

/-- What a pool is read with once the number of its slots is known. -/
private theorem reads_slots (count : UInt16) :
    Reads (do
      let entries ← readOnto count.toNat count.toNat #[.unusable]
      if entries.size = count.toNat then return ofEntries entries.toList
      else throw (.badIndex (count - if count = 0 then 0 else 1) .withinCount))
      (fun pool bytes => ∃ constants parts, pool = ofEntries (layout constants) ∧
        (layout constants).length = count.toNat ∧ List.Forall₂ Constant.Spelled constants parts ∧
        bytes = parts.flatten) := by
  intro before pool after
  -- Slot zero is there from the start, and the fuel is enough for all others.
  have filled := fun all => readOnto_ok_iff count.toNat count.toNat #[.unusable] all before after
    (by simp)
  constructor
  · intro taken
    simp only [bind, StateT.bind, Except.bind] at taken
    split at taken
    · cases taken
    next _ result found =>
      obtain ⟨all, middle⟩ := result
      split at taken
      next size =>
        obtain ⟨rfl, rfl⟩ := Prod.mk.inj (Except.ok.inj taken)
        obtain ⟨constants, parts, slots, -, spelled, passed⟩ := (filled all).mp ⟨found, size⟩
        have same : all.toList = layout constants := slots
        rw [← Array.length_toList, same] at size
        exact ⟨_, ⟨constants, parts, by rw [same], size, spelled, rfl⟩, passed⟩
      · cases taken
  · rintro ⟨_, ⟨constants, parts, rfl, size, spelled, rfl⟩, passed⟩
    obtain ⟨found, size⟩ := (filled (layout constants).toArray).mpr
      ⟨constants, parts, rfl, size, spelled, passed⟩
    simp only [bind, StateT.bind, Except.bind, found, if_pos size]
    rfl

theorem reads_pool : Reads ConstantPool.read Spelled := by
  refine ((reads_orFault reads_uint16).bind reads_slots).congr fun pool bytes => ?_
  constructor
  · rintro ⟨count, _, _, rfl, ⟨constants, parts, same, size, spelled, rfl⟩, rfl⟩
    exact ⟨count, constants, parts, same, size, spelled, rfl⟩
  · rintro ⟨count, constants, parts, same, size, spelled, rfl⟩
    exact ⟨count, _, _, rfl, ⟨constants, parts, same, size, spelled, rfl⟩, rfl⟩

/-! ## Writing -/

/-- All bytes of the slots, in order. -/
private def writeSlots (slots : List Constant) : Written := List.flatten <$> slots.mapM Constant.write

private theorem writeSlots_append (front back : List Constant) :
    writeSlots (front ++ back) = do
      let left ← writeSlots front
      let right ← writeSlots back
      return left ++ right := by
  simp only [writeSlots, List.mapM_append, map_eq_pure_bind, bind_assoc, pure_bind,
    List.flatten_append]

private theorem writeSlots_unusable : writeSlots [.unusable] = .ok [] := rfl

/-- The slot behind a wide constant adds nothing to the bytes. -/
private theorem writeSlots_slots (constants : List Constant) :
    writeSlots (constants.flatMap slots) = writeSlots constants := by
  induction constants with
  | nil => rfl
  | cons constant constants ih =>
    -- Only a wide constant has a second slot, and an unusable slot is written as nothing.
    have one : writeSlots constant.slots = writeSlots [constant] := by
      rw [slots]
      split
      · rw [← List.singleton_append, writeSlots_append, writeSlots_unusable]
        cases writeSlots [constant] <;> simp [bind, Except.bind, pure, Except.pure]
      · rfl
    rw [List.flatMap_cons, writeSlots_append, one, ih]
    exact (writeSlots_append [constant] constants).symm

theorem write_layout_iff {count : UInt16} {constants : List Constant}
    (size : (layout constants).length = count.toNat) (bytes : Bytes) :
    (ofEntries (layout constants)).write = .ok bytes ↔
      ∃ parts, List.Forall₂ (fun constant part => constant.write = .ok part) constants parts ∧
        bytes = Bytes.ofUInt16 count ++ parts.flatten := by
  have counted : (ofEntries (layout constants)).count = count := by
    rw [ConstantPool.count, ofEntries, List.size_toArray, size, UInt16.ofNat_toNat]
  have same : writeSlots (layout constants) = writeSlots constants := by
    rw [layout, ← List.singleton_append, writeSlots_append, writeSlots_unusable, writeSlots_slots]
    cases writeSlots constants <;> rfl
  have written : (ofEntries (layout constants)).write =
      (Bytes.ofUInt16 count ++ ·) <$> writeSlots (layout constants) := by
    rw [ConstantPool.write, counted]
    simp only [ofEntries, writeSlots, map_eq_pure_bind, bind_assoc, pure_bind]
  rw [written, same, writeSlots]
  simp only [← mapM_ok_iff]
  cases constants.mapM Constant.write <;> simp [Functor.map, Except.map, eq_comm]

private theorem append_eq_iff {left left' right right' : Bytes}
    (front : left.length ≤ left'.length) (back : right.length ≤ right'.length) :
    left ++ right = left' ++ right' ↔ left = left' ∧ right = right' := by
  constructor
  · intro same
    have lengths := congrArg List.length same
    rw [List.length_append, List.length_append] at lengths
    exact List.append_inj same (by omega)
  · rintro ⟨rfl, rfl⟩
    rfl

theorem write_of_spelled_all {constants : List Constant} {parts : List Bytes}
    (spelled : List.Forall₂ Constant.Spelled constants parts) :
    ∃ written, List.Forall₂ (fun constant part => constant.write = .ok part) constants written ∧
      written.flatten.length ≤ parts.flatten.length ∧
      (written.flatten = parts.flatten ↔ ∀ text part, (Constant.utf8 text, part) ∈
        constants.zip parts → ModifiedUtf8.Shortest (part.drop 3)) := by
  induction spelled with
  | nil => exact ⟨[], .nil, Nat.le_refl _, by simp⟩
  | @cons constant part constants parts first _ ih =>
    obtain ⟨one, writes, shorter, same⟩ := write_of_spelled first
    obtain ⟨others, writes', shorter', same'⟩ := ih
    refine ⟨one :: others, .cons writes writes', ?_, ?_⟩
    · simp only [List.flatten_cons, List.length_append]
      omega
    · -- Nothing gets longer, so the bytes can only agree if they agree constant by constant.
      rw [List.flatten_cons, List.flatten_cons, append_eq_iff shorter shorter', same, same']
      simp only [List.zip_cons_cons, List.mem_cons, Prod.mk.injEq]
      constructor
      · rintro ⟨here, there⟩ text bytes (⟨text', rfl⟩ | member)
        · exact here text text'.symm
        · exact there text bytes member
      · intro each
        exact ⟨fun text same => each text part (.inl ⟨same.symm, rfl⟩),
          fun text bytes member => each text bytes (.inr member)⟩

/-- What was read as a pool can be written, and is written as it was read unless one of its texts
was spelled with a group longer than needed. -/
theorem write_of_spelled_layout {count : UInt16} {constants : List Constant} {parts : List Bytes}
    (size : (layout constants).length = count.toNat)
    (spelled : List.Forall₂ Constant.Spelled constants parts) :
    ∃ written, (ofEntries (layout constants)).write = .ok written ∧
      (written = Bytes.ofUInt16 count ++ parts.flatten ↔ ∀ text part, (Constant.utf8 text, part) ∈
        constants.zip parts → ModifiedUtf8.Shortest (part.drop 3)) := by
  obtain ⟨written, writes, -, same⟩ := write_of_spelled_all spelled
  refine ⟨_, (write_layout_iff size _).mpr ⟨written, writes, rfl⟩, ?_⟩
  rw [List.append_cancel_left_eq, same]

theorem spelled_of_write_layout {count : UInt16} {constants : List Constant} {bytes : Bytes}
    (size : (layout constants).length = count.toNat)
    (sound : ∀ constant ∈ constants, constant ≠ unusable ∧ constant.Kept)
    (written : (ofEntries (layout constants)).write = .ok bytes) :
    Spelled (ofEntries (layout constants)) bytes := by
  obtain ⟨parts, writes, rfl⟩ := (write_layout_iff size bytes).mp written
  refine ⟨count, constants, parts, rfl, size, ?_, rfl⟩
  clear written size
  induction writes with
  | nil => exact .nil
  | @cons constant part constants parts first _ ih =>
    obtain ⟨usable, kept⟩ := sound constant List.mem_cons_self
    exact .cons (spelled_of_write usable kept first)
      (ih fun other member => sound other (List.mem_cons_of_mem constant member))

/-! ## Spellings -/

/-- The constants that are read from the cursor on, each with the bytes it was read from, until
`count` slots are taken. -/
def spellings (count : Nat) : Nat → Nat → Cursor → List (Constant × Bytes)
  | 0, _, _ => []
  | fuel + 1, taken, cursor =>
    if taken < count then
      match Constant.read (UInt16.ofNat taken) cursor with
      | .ok (constant, next) =>
        (constant, cursor.rest.take (next.offset - cursor.offset)) ::
          spellings count fuel (taken + constant.slots.length) next
      | .error _ => []
    else []

/-- The bytes of each constant are found again if the reading goes through. -/
theorem spellings_eq_zip {count fuel taken : Nat} {constants : List Constant} {parts : List Bytes}
    {before after : Cursor} (spelled : List.Forall₂ Constant.Spelled constants parts)
    (passed : Passed parts.flatten before after) (enough : count ≤ taken + fuel)
    (size : taken + (constants.flatMap slots).length = count) :
    spellings count fuel taken before = constants.zip parts := by
  -- As in the reading, the fuel lasts because every constant takes a slot.
  induction spelled generalizing fuel taken before with
  | nil =>
    have full : ¬ taken < count := by simp at size; omega
    cases fuel <;> simp [spellings, full]
  | @cons constant part constants parts first _ ih =>
    obtain ⟨next, here, behind⟩ := (passed_append part parts.flatten before after).mp passed
    have takes := slots_length_pos constant
    rw [List.flatMap_cons, List.length_append] at size
    cases fuel with
    | zero => omega
    | succ fuel =>
      have width : next.offset - before.offset = part.length := by
        rw [here.offset]
        omega
      have others : spellings count fuel (taken + constant.slots.length) next = constants.zip parts :=
        ih behind (by omega) (by omega)
      rw [spellings, if_pos (by omega), (reads_constant _ before constant next).mpr ⟨part, first, here⟩,
        List.zip_cons_cons, ← others]
      simp only [width, here.rest, List.take_left]

end ConstantPool

end JarRemap
