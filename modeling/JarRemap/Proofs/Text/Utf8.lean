import JarRemap.Bytes
import Mathlib.Data.List.Infix

/-!
# Text as bytes

The bytes of a text are those of its characters in turn. No character's bytes begin with those of
another one, so texts whose bytes agree up to some point agree up to there.
-/

namespace JarRemap.Text

private theorem toList_loop (bytes : ByteArray) (found : Bytes) {start : Nat}
    (within : start ≤ bytes.size) :
    ByteArray.toList.loop bytes start found = found.reverse ++ bytes.data.toList.drop start := by
  -- The loop runs up to the end, so the induction is on how far away that is.
  induction left : bytes.size - start generalizing start found with
  | zero =>
    rw [ByteArray.toList.loop, if_neg (by omega), List.drop_eq_nil_of_le (by simp; omega),
      List.append_nil]
  | succ rest ih =>
    have here : start < bytes.size := by omega
    have there : start < bytes.data.toList.length := by simpa using here
    have first : bytes.get! start = bytes.data.toList[start] := getElem!_pos bytes.data start here
    rw [ByteArray.toList.loop, if_pos here, ih _ here (by omega), List.reverse_cons,
      List.append_assoc, List.drop_eq_getElem_cons there, first]
    rfl

/-- The bytes of a text as a list. -/
theorem toList_toUTF8 (text : String) :
    text.toUTF8.toList = text.toList.flatMap String.utf8EncodeChar := by
  rw [ByteArray.toList, toList_loop _ _ (Nat.zero_le _), String.toUTF8, ← String.utf8Encode_toList]
  simp [List.utf8Encode]

/-- What was written as text is read as that text. -/
theorem fromUTF8?_toUTF8 (text : String) :
    String.fromUTF8? (ByteArray.mk text.toUTF8.toList.toArray) = some text := by
  have same : ByteArray.mk text.toUTF8.toList.toArray = text.toByteArray := by
    rw [ByteArray.toList, toList_loop _ _ (Nat.zero_le _), String.toUTF8]
    simp
  rw [same, String.fromUTF8?, dif_pos text.isValidUTF8]
  rfl

theorem utf8EncodeChar_delimits {c d : Char} {rest others : Bytes}
    (same : String.utf8EncodeChar c ++ rest = String.utf8EncodeChar d ++ others) : c = d := by
  have read (e : Char) (behind : Bytes) :
      (String.utf8EncodeChar e ++ behind).toByteArray.utf8DecodeChar? 0 = some e := by
    rw [List.toByteArray_append]
    exact ByteArray.utf8DecodeChar?_utf8EncodeChar_append
  exact Option.some.inj ((read c rest).symm.trans (same ▸ read d others))

/-- Of two texts whose bytes agree as far as both go, one begins with the other. -/
theorem prefix_or_prefix_of_flatMap {chars others : List Char} {rest more : Bytes}
    (same : chars.flatMap String.utf8EncodeChar ++ rest =
      others.flatMap String.utf8EncodeChar ++ more) :
    chars <+: others ∨ others <+: chars := by
  induction chars generalizing others with
  | nil => exact .inl List.nil_prefix
  | cons c chars ih =>
    cases others with
    | nil => exact .inr List.nil_prefix
    | cons d others =>
      simp only [List.flatMap_cons, List.append_assoc] at same
      obtain rfl := utf8EncodeChar_delimits same
      simpa [List.cons_prefix_cons] using ih (List.append_cancel_left same)

end JarRemap.Text
