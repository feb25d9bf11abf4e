import JarRemap.Proofs.Attribute.Format

/-!
# Bodies and what they stand for

Every body that is parsed is encoded again to the same bytes, and every value that is encoded is parsed
again from its bytes. Nothing keeps a value from being encoded but a count that its field cannot hold.
-/

namespace JarRemap

namespace Format

variable {α β : Type}

/-- The writer takes exactly the values that fit. -/
def Admits (format : Format α) (fits : α → Prop) : Prop :=
  ∀ value, (∃ bytes, format.write value = .ok bytes) ↔ fits value

theorem Admits.congr {format : Format α} {fits others : α → Prop} (admits : format.Admits fits)
    (same : ∀ value, fits value ↔ others value) : format.Admits others :=
  fun value => (admits value).trans (same value)

theorem uint16_admits : uint16.Admits fun _ => True :=
  fun value => iff_of_true ⟨Bytes.ofUInt16 value, rfl⟩ trivial

theorem Admits.imap {format : Format α} {fits : α → Prop} (admits : format.Admits fits)
    (into : α → β) (back : β → α) : (format.imap into back).Admits fun value => fits (back value) :=
  fun value => admits (back value)

theorem Admits.pair {first : Format α} {second : Format β} {fits : α → Prop} {fits' : β → Prop}
    (left : first.Admits fits) (right : second.Admits fits') :
    (first.pair second).Admits fun value => fits value.1 ∧ fits' value.2 := by
  intro value
  simp only [pair_write_iff, ← left value.1, ← right value.2]
  constructor
  · rintro ⟨_, front, back, writes, writes', rfl⟩
    exact ⟨⟨front, writes⟩, back, writes'⟩
  · rintro ⟨⟨front, writes⟩, back, writes'⟩
    exact ⟨_, front, back, writes, writes', rfl⟩

/-- All items are written if each of them is. -/
theorem Admits.all {item : Format α} {fits : α → Prop} (admits : item.Admits fits) (values : List α) :
    (∃ bytes, item.writeAll values = .ok bytes) ↔ ∀ value ∈ values, fits value := by
  simp only [← admits _, ← exists_mapM_ok_iff, writeAll_ok_iff, ← mapM_ok_iff]
  constructor
  · rintro ⟨_, parts, written, rfl⟩
    exact ⟨parts, written⟩
  · rintro ⟨parts, written⟩
    exact ⟨_, parts, written, rfl⟩

theorem exists_count16_iff (name : String) (length : Nat) :
    (∃ count, count16 name length = .ok count) ↔ length ≤ 65535 := by
  rw [count16]
  split
  next fits => exact iff_of_true ⟨_, rfl⟩ (by omega)
  next many => exact iff_of_false (by simp) (by omega)

theorem counted_admits (name : String) {item : Format α} {fits : α → Prop} (admits : item.Admits fits) :
    (counted name item).Admits fun values => values.length ≤ 65535 ∧ ∀ value ∈ values, fits value := by
  intro values
  simp only [← exists_count16_iff name, ← admits.all values, counted, bind_ok_iff, pure_ok_iff]
  constructor
  · rintro ⟨_, count, counts, body, writes, rfl⟩
    exact ⟨⟨count, counts⟩, body, writes⟩
  · rintro ⟨⟨count, counts⟩, body, writes⟩
    exact ⟨_, count, counts, body, writes, rfl⟩

theorem countedByte_admits (name : String) {item : Format α} {fits : α → Prop}
    (admits : item.Admits fits) :
    (countedByte name item).Admits fun values => values.length ≤ 255 ∧ ∀ value ∈ values, fits value := by
  intro values
  simp only [← admits.all values, countedByte]
  split
  next few =>
    simp only [bind_ok_iff, pure_ok_iff]
    constructor
    · rintro ⟨_, body, writes, rfl⟩
      exact ⟨by omega, body, writes⟩
    · rintro ⟨-, body, writes⟩
      exact ⟨_, body, writes, rfl⟩
  next many => exact iff_of_false (by simp) (by omega)

theorem block_admits (name : String) : (block name).Admits fun body => body.length ≤ 4294967295 := by
  intro body
  rw [block]
  dsimp only
  split
  next fits => exact iff_of_true ⟨_, rfl⟩ (by omega)
  next long => exact iff_of_false (by simp) (by omega)

theorem records_admits (name : String) (width : Nat) :
    (records name width).Admits fun body => body.length / width ≤ 65535 := by
  intro body
  simp only [← exists_count16_iff name, records, bind_ok_iff, pure_ok_iff]
  constructor
  · rintro ⟨_, count, counts, rfl⟩
    exact ⟨count, counts⟩
  · rintro ⟨count, counts⟩
    exact ⟨_, count, counts, rfl⟩

/-- Bodies and values are made of each other: a value from each body that is parsed, and a body from
each value that does not exceed what the fields for its counts can hold. What is encoded is parsed
again if it is whole. -/
structure Codec (format : Format α) (whole exceeds : α → Prop) : Prop where
  encoded : ∀ {name body value}, format.parse name body = .ok value → format.encode value = .ok body
  parsed : ∀ {name body value}, whole value → format.encode value = .ok body →
    format.parse name body = .ok value
  refused : ∀ value, (∃ fault, format.encode value = .error fault) ↔ exceeds value

theorem ExactOn.codec {format : Format α} {whole fits exceeds : α → Prop} (exact : format.ExactOn whole)
    (admits : format.Admits fits) (same : ∀ value, exceeds value ↔ ¬ fits value) :
    format.Codec whole exceeds where
  encoded parses := ((exact.parse_ok_iff _ _ _).mp parses).2
  parsed isWhole encodes := (exact.parse_ok_iff _ _ _).mpr ⟨isWhole, encodes⟩
  refused value := by
    rw [same, ← admits value]
    simp only [← encode_ok_iff]
    cases format.encode value <;> simp

/-- Where nothing is written that is not read again, every value is whole. -/
theorem Exact.codec {format : Format α} {fits exceeds : α → Prop} (exact : format.Exact)
    (admits : format.Admits fits) (same : ∀ value, exceeds value ↔ ¬ fits value) :
    format.Codec (fun _ => True) exceeds :=
  exact.on.codec admits same

end Format

namespace Attribute

open Format

/-! ## What each body can hold -/

theorem accessFormat_admits : accessFormat.Admits fun _ => True := uint16_admits.imap _ _

theorem innerClasses_admits : innerClasses.Admits fun entries => entries.length ≤ 65535 :=
  (counted_admits _ ((uint16_admits.pair (uint16_admits.pair (uint16_admits.pair
    accessFormat_admits))).imap _ _)).congr fun _ => by simp

theorem enclosingMethod_admits : enclosingMethod.Admits fun _ => True :=
  ((uint16_admits.pair uint16_admits).imap _ _).congr fun _ => by simp

theorem bootstrapMethods_admits : bootstrapMethods.Admits fun methods =>
    methods.length ≤ 65535 ∧ ∀ method ∈ methods, method.arguments.length ≤ 65535 :=
  (counted_admits _ ((uint16_admits.pair (counted_admits _ uint16_admits)).imap _ _)).congr
    fun _ => by simp

theorem exceptions_admits : exceptions.Admits fun classes => classes.length ≤ 65535 :=
  (counted_admits _ uint16_admits).congr fun _ => by simp

theorem methodParameters_admits : methodParameters.Admits fun parameters => parameters.length ≤ 255 :=
  (countedByte_admits _ ((uint16_admits.pair accessFormat_admits).imap _ _)).congr fun _ => by simp

theorem localVariables_admits : localVariables.Admits fun locals => locals.length ≤ 65535 :=
  (counted_admits _ ((uint16_admits.pair (uint16_admits.pair (uint16_admits.pair
    (uint16_admits.pair uint16_admits)))).imap _ _)).congr fun _ => by simp

theorem listFormat_admits : listFormat.Admits fun attributes =>
    attributes.length ≤ 65535 ∧ ∀ item ∈ attributes, item.body.length ≤ 4294967295 :=
  (counted_admits _ ((uint16_admits.pair (block_admits _)).imap _ _)).congr fun _ => by simp

theorem code_admits : code.Admits fun parts =>
    parts.instructions.length ≤ 4294967295 ∧ parts.handlers.length / 8 ≤ 65535 ∧
      parts.attributes.length ≤ 65535 ∧
      ∀ item ∈ parts.attributes, item.body.length ≤ 4294967295 :=
  ((uint16_admits.pair (uint16_admits.pair ((block_admits _).pair ((records_admits _ _).pair
    listFormat_admits)))).imap _ _).congr fun _ => by simp [handlerWidth]

/-- No attribute that is taken apart is changed by being put together again. One can be put together
unless it has more items, parameters or bytes than can be counted in the two, one or four bytes before
them. Handlers of code are found again if they are full records of eight bytes. -/
theorem codecs_exact :
    signature.Codec (fun _ => True) (fun _ => False) ∧
    innerClasses.Codec (fun _ => True) (fun entries => 65535 < entries.length) ∧
    enclosingMethod.Codec (fun _ => True) (fun _ => False) ∧
    bootstrapMethods.Codec (fun _ => True) (fun methods =>
      65535 < methods.length ∨ ∃ method ∈ methods, 65535 < method.arguments.length) ∧
    exceptions.Codec (fun _ => True) (fun classes => 65535 < classes.length) ∧
    methodParameters.Codec (fun _ => True) (fun parameters => 255 < parameters.length) ∧
    localVariables.Codec (fun _ => True) (fun locals => 65535 < locals.length) ∧
    code.Codec (fun parts => 8 ∣ parts.handlers.length) (fun parts =>
      4294967295 < parts.instructions.length ∨ 65535 < parts.handlers.length / 8 ∨
        65535 < parts.attributes.length ∨
        ∃ item ∈ parts.attributes, 4294967295 < item.body.length) := by
  refine ⟨?_, ?_, ?_, ?_, ?_, ?_, ?_, ?_⟩
  · exact signature_exact.codec uint16_admits fun _ => by simp
  · exact innerClasses_exact.codec innerClasses_admits fun _ => by simp
  · exact enclosingMethod_exact.codec enclosingMethod_admits fun _ => by simp
  · refine bootstrapMethods_exact.codec bootstrapMethods_admits fun _ => ?_
    simp only [not_and_or, not_le, not_forall, exists_prop]
  · exact exceptions_exact.codec exceptions_admits fun _ => by simp
  · exact methodParameters_exact.codec methodParameters_admits fun _ => by simp
  · exact localVariables_exact.codec localVariables_admits fun _ => by simp
  · refine code_exactOn.codec code_admits fun _ => ?_
    simp only [not_and_or, not_le, not_forall, exists_prop]

/-- A handler of a single byte is written, but no code is read with it. -/
example : code.encode ⟨0, 0, [], [7], []⟩ = .ok [0, 0, 0, 0, 0, 0, 0, 0, 0, 0, 7, 0, 0] ∧
    code.parse codeName [0, 0, 0, 0, 0, 0, 0, 0, 0, 0, 7, 0, 0] =
      .error (.badAttribute codeName (.truncated ⟨12, 2⟩)) := by
  decide

end Attribute

end JarRemap
