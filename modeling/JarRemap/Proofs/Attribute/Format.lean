import JarRemap.Attribute.Code
import JarRemap.Attribute.Method
import JarRemap.Proofs.ClassFile.Format

/-!
# Bodies of attributes

A body is parsed to a value exactly if it is what the value is encoded to. Code is the exception, as
handlers that are no full records are written but never read.
-/

namespace JarRemap

open Cursor

namespace Format

variable {α β : Type}

/-- The reader accepts exactly what the writer writes for the values that fit. -/
def ExactOn (format : Format α) (fits : α → Prop) : Prop :=
  Reads format.read (fun value bytes => fits value ∧ format.write value = .ok bytes)

theorem Exact.on {format : Format α} (exact : format.Exact) : format.ExactOn fun _ => True :=
  exact.congr fun _ _ => by simp

theorem ExactOn.congr {format : Format α} {fits others : α → Prop} (exact : format.ExactOn fits)
    (same : ∀ value, fits value ↔ others value) : format.ExactOn others :=
  Reads.congr exact fun value _ => by rw [same value]

theorem ExactOn.imap {format : Format α} {fits : α → Prop} (exact : format.ExactOn fits) (into : α → β)
    (back : β → α) (there : ∀ value, into (back value) = value)
    (again : ∀ value, back (into value) = value) :
    (format.imap into back).ExactOn fun value => fits (back value) := by
  refine (Reads.map exact into).congr fun value bytes => ?_
  constructor
  · rintro ⟨inner, written, rfl⟩
    simpa [Format.imap, again] using written
  · intro written
    exact ⟨back value, written, there value⟩

theorem ExactOn.pair {first : Format α} {second : Format β} {fits : α → Prop} {fits' : β → Prop}
    (left : first.ExactOn fits) (right : second.ExactOn fits') :
    (first.pair second).ExactOn fun value => fits value.1 ∧ fits' value.2 := by
  refine (Reads.bind left fun a => Reads.bind right fun b => reads_pure (a, b)).congr
    fun value bytes => ?_
  rw [pair_write_iff]
  constructor
  · rintro ⟨a, front, _, ⟨fit, writes⟩, ⟨b, back, _, ⟨fit', writes'⟩, ⟨rfl, rfl⟩, rfl⟩, rfl⟩
    exact ⟨⟨fit, fit'⟩, front, back, writes, writes', by simp⟩
  · rintro ⟨⟨fit, fit'⟩, front, back, writes, writes', rfl⟩
    exact ⟨value.1, front, back, ⟨fit, writes⟩, ⟨value.2, back, [], ⟨fit', writes'⟩, ⟨rfl, rfl⟩,
      by simp⟩, rfl⟩

/-- Bytes beyond the last full record are never read. -/
theorem records_exactOn (name : String) {width : Nat} (positive : 0 < width) :
    (records name width).ExactOn fun body => width ∣ body.length := by
  refine (reads_uint16.bind fun count => reads_take (count.toNat * width)).congr fun body bytes => ?_
  simp only [records, bind_ok_iff, pure_ok_iff, count16_ok_iff]
  constructor
  · rintro ⟨count, _, _, rfl, ⟨rfl, length⟩, rfl⟩
    exact ⟨⟨count.toNat, by rw [length, Nat.mul_comm]⟩, count,
      by rw [length, Nat.mul_div_cancel _ positive], rfl⟩
  · rintro ⟨full, count, counted, rfl⟩
    exact ⟨count, _, _, rfl, ⟨rfl, by rw [← counted, Nat.div_mul_cancel full]⟩, rfl⟩

theorem countedByte_exact (name : String) {item : Format α} (exact : item.Exact) :
    (countedByte name item).Exact := by
  refine (reads_byte.bind fun count => reads_times exact count.toNat).congr fun values bytes => ?_
  simp only [countedByte]
  constructor
  · rintro ⟨count, _, _, rfl, ⟨length, parts, spelled, rfl⟩, rfl⟩
    -- A count that was read from one byte is small enough to be written as one.
    have bound := count.toNat_lt
    rw [if_pos (by omega), bind_ok_iff]
    refine ⟨parts.flatten, (writeAll_ok_iff item values _).mpr ⟨parts, spelled, rfl⟩, ?_⟩
    rw [pure_ok_iff, length, UInt8.ofNat_toNat]
    rfl
  · intro written
    split at written
    next few =>
      obtain ⟨body, writes, same⟩ := (bind_ok_iff _ _ _).mp written
      obtain rfl := (pure_ok_iff _ _).mp same
      obtain ⟨parts, spelled, rfl⟩ := (writeAll_ok_iff item values body).mp writes
      exact ⟨_, _, _, rfl, ⟨(UInt8.toNat_ofNat_of_lt' few).symm, parts, spelled, rfl⟩, rfl⟩
    · cases written

theorem encode_ok_iff (format : Format α) (value : α) (bytes : Bytes) :
    format.encode value = .ok bytes ↔ format.write value = .ok bytes := by
  rw [encode]
  cases format.write value <;> simp [Except.mapError]

/-- A body is parsed to the values that fit and are encoded to it. -/
theorem ExactOn.parse_ok_iff {format : Format α} {fits : α → Prop} (exact : format.ExactOn fits)
    (name : String) (body : Bytes) (value : α) :
    format.parse name body = .ok value ↔ fits value ∧ format.encode value = .ok body := by
  -- To read all of the body is to leave nothing behind it.
  have whole : format.parse name body = .ok value ↔
      ∃ offset, format.read (start body) = .ok (value, ⟨offset, []⟩) := by
    rw [parse]
    cases format.read (start body) with
    | error shortage => simp
    | ok found =>
      obtain ⟨other, offset, rest⟩ := found
      cases rest <;> simp
  rw [whole, encode_ok_iff]
  constructor
  · rintro ⟨offset, taken⟩
    obtain ⟨_, spelled, passed⟩ := (exact _ _ _).mp taken
    obtain rfl : body = _ := passed.rest.trans (List.append_nil _)
    exact spelled
  · intro spelled
    exact ⟨body.length, (exact _ _ _).mpr ⟨body, spelled, by simp [start], by simp [start]⟩⟩

theorem Exact.parse_ok_iff {format : Format α} (exact : format.Exact) (name : String) (body : Bytes)
    (value : α) : format.parse name body = .ok value ↔ format.encode value = .ok body := by
  rw [exact.on.parse_ok_iff, true_and]

end Format

namespace Attribute

open Format

theorem accessFormat_exact : accessFormat.Exact :=
  uint16_exact.imap _ _ (fun _ => rfl) (fun _ => rfl)

theorem innerClasses_exact : innerClasses.Exact :=
  counted_exact _ ((uint16_exact.pair (uint16_exact.pair (uint16_exact.pair
    accessFormat_exact))).imap _ _ (fun _ => rfl) (fun _ => rfl))

theorem enclosingMethod_exact : enclosingMethod.Exact :=
  (uint16_exact.pair uint16_exact).imap _ _ (fun _ => rfl) (fun _ => rfl)

theorem signature_exact : signature.Exact := uint16_exact

theorem exceptions_exact : exceptions.Exact := counted_exact _ uint16_exact

theorem bootstrapMethods_exact : bootstrapMethods.Exact :=
  counted_exact _ ((uint16_exact.pair (counted_exact _ uint16_exact)).imap _ _ (fun _ => rfl)
    (fun _ => rfl))

theorem methodParameters_exact : methodParameters.Exact :=
  countedByte_exact _ ((uint16_exact.pair accessFormat_exact).imap _ _ (fun _ => rfl) (fun _ => rfl))

theorem localVariables_exact : localVariables.Exact :=
  counted_exact _ ((uint16_exact.pair (uint16_exact.pair (uint16_exact.pair
    (uint16_exact.pair uint16_exact)))).imap _ _ (fun _ => rfl) (fun _ => rfl))

theorem code_exactOn : code.ExactOn fun parts => handlerWidth ∣ parts.handlers.length :=
  ((uint16_exact.on.pair (uint16_exact.on.pair ((block_exact _).on.pair
    ((records_exactOn _ (by decide)).pair listFormat_exact.on)))).imap _ _ (fun _ => rfl)
      (fun _ => rfl)).congr fun _ => by simp

/-- Code that was parsed is encoded with other nested attributes to what they are parsed from. -/
theorem code_nested {body changed : Bytes} {parts : Code} {nested : List Attribute}
    (parsed : code.parse codeName body = .ok parts)
    (encoded : code.encode { parts with attributes := nested } = .ok changed) :
    code.parse codeName changed = .ok { parts with attributes := nested } :=
  (code_exactOn.parse_ok_iff _ _ _).mpr ⟨((code_exactOn.parse_ok_iff _ _ _).mp parsed).1, encoded⟩

end Attribute

end JarRemap
