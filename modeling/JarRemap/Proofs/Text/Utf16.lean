import JarRemap.Text.Utf16

/-! Decoding UTF-16 is the inverse of encoding it: text and its units determine each other, and the
units of texts are those whose surrogates come in pairs. -/

namespace JarRemap.Text.Utf16

theorem isHigh_iff (unit : UInt16) :
    isHigh unit = true ↔ 0xD800 ≤ unit.toNat ∧ unit.toNat < 0xDC00 := by
  simp [isHigh, UInt16.le_iff_toNat_le, UInt16.lt_iff_toNat_lt]

theorem isLow_iff (unit : UInt16) :
    isLow unit = true ↔ 0xDC00 ≤ unit.toNat ∧ unit.toNat < 0xE000 := by
  simp [isLow, UInt16.le_iff_toNat_le, UInt16.lt_iff_toNat_lt]

theorem ofNat_toNat (n : Nat) (valid : n.isValidChar) : (Char.ofNat n).toNat = n := by
  rw [Char.ofNat, dif_pos valid]
  rfl

/-- A unit that is no surrogate is all of its character. -/
theorem ofChar_plain (unit : UInt16) (high : ¬isHigh unit = true) (low : ¬isLow unit = true) :
    ofChar (Char.ofNat unit.toNat) = [unit] := by
  rw [isHigh_iff] at high
  rw [isLow_iff] at low
  have bound := unit.toNat_lt
  have valid : unit.toNat.isValidChar := by
    simp only [Nat.isValidChar]
    omega
  rw [ofChar, ofNat_toNat _ valid, if_pos bound, UInt16.ofNat_toNat]

theorem joined_toNat (high low : UInt16) (isHigh : isHigh high = true) (isLow : isLow low = true) :
    (joined high low).toNat =
      0x10000 + (high.toNat - 0xD800) * 0x400 + (low.toNat - 0xDC00) := by
  rw [isHigh_iff] at isHigh
  rw [isLow_iff] at isLow
  apply ofNat_toNat
  simp only [Nat.isValidChar]
  omega

theorem ofChar_joined (high low : UInt16) (isHigh : isHigh high = true)
    (isLow : isLow low = true) : ofChar (joined high low) = [high, low] := by
  have code := joined_toNat high low isHigh isLow
  rw [isHigh_iff] at isHigh
  rw [isLow_iff] at isLow
  rw [ofChar, code, if_neg (by omega)]
  simp only [List.cons.injEq, and_true, ← UInt16.toNat_inj, UInt16.toNat_ofNat']
  omega

private theorem decodeOnto_plain (found : List Char) (unit : UInt16) (rest : List UInt16)
    (high : ¬isHigh unit = true) (low : ¬isLow unit = true) :
    decodeOnto found (unit :: rest) = decodeOnto (Char.ofNat unit.toNat :: found) rest := by
  cases rest <;> simp [decodeOnto, high, low]

private theorem decodeOnto_pair (found : List Char) (unit low : UInt16) (rest : List UInt16)
    (first : isHigh unit = true) (second : isLow low = true) :
    decodeOnto found (unit :: low :: rest) = decodeOnto (joined unit low :: found) rest := by
  simp [decodeOnto, first, second]

/-- The units of a character are read as that character. -/
theorem decodeOnto_ofChar (found : List Char) (c : Char) (rest : List UInt16) :
    decodeOnto found (ofChar c ++ rest) = decodeOnto (c :: found) rest := by
  have valid : c.toNat.isValidChar := c.valid
  simp only [Nat.isValidChar] at valid
  -- A character is one unit up to U+FFFF, and above that two surrogates that are joined again.
  by_cases plain : c.toNat < 0x10000
  · have code : (UInt16.ofNat c.toNat).toNat = c.toNat := UInt16.toNat_ofNat_of_lt' plain
    have high : ¬isHigh (UInt16.ofNat c.toNat) = true := by
      rw [isHigh_iff, code]
      omega
    have low : ¬isLow (UInt16.ofNat c.toNat) = true := by
      rw [isLow_iff, code]
      omega
    rw [ofChar, if_pos plain, List.singleton_append, decodeOnto_plain _ _ _ high low, code,
      Char.ofNat_toNat]
  · have front : (UInt16.ofNat (0xD800 + (c.toNat - 0x10000) / 0x400)).toNat =
        0xD800 + (c.toNat - 0x10000) / 0x400 := UInt16.toNat_ofNat_of_lt' (by
      simp only [UInt16.size]
      omega)
    have back : (UInt16.ofNat (0xDC00 + (c.toNat - 0x10000) % 0x400)).toNat =
        0xDC00 + (c.toNat - 0x10000) % 0x400 := UInt16.toNat_ofNat_of_lt' (by
      simp only [UInt16.size]
      omega)
    have high : isHigh (UInt16.ofNat (0xD800 + (c.toNat - 0x10000) / 0x400)) = true := by
      rw [isHigh_iff, front]
      omega
    have low : isLow (UInt16.ofNat (0xDC00 + (c.toNat - 0x10000) % 0x400)) = true := by
      rw [isLow_iff, back]
      omega
    have character : joined (UInt16.ofNat (0xD800 + (c.toNat - 0x10000) / 0x400))
        (UInt16.ofNat (0xDC00 + (c.toNat - 0x10000) % 0x400)) = c := by
      have code : 0x10000 + (0xD800 + (c.toNat - 0x10000) / 0x400 - 0xD800) * 0x400 +
          (0xDC00 + (c.toNat - 0x10000) % 0x400 - 0xDC00) = c.toNat := by omega
      rw [joined, front, back, code, Char.ofNat_toNat]
    rw [ofChar, if_neg plain, List.cons_append, List.singleton_append,
      decodeOnto_pair _ _ _ _ high low, character]

private theorem decodeOnto_iff (found chars : List Char) (units : List UInt16) :
    decodeOnto found units = some chars ↔
      ∃ more, chars = found.reverse ++ more ∧ more.flatMap ofChar = units := by
  constructor
  · intro decoded
    fun_induction decodeOnto found units with
    | case1 found =>
      obtain rfl := Option.some.inj decoded
      exact ⟨[], by simp, rfl⟩
    | case2 found unit high low rest isLow ih =>
      obtain ⟨more, rfl, spelled⟩ := ih decoded
      exact ⟨joined unit low :: more, by simp, by
        rw [List.flatMap_cons, ofChar_joined unit low high isLow, spelled]; rfl⟩
    -- A high surrogate without a low one, and a low one by itself.
    | case3 => cases decoded
    | case4 => cases decoded
    | case5 => cases decoded
    | case6 found unit rest high low ih =>
      obtain ⟨more, rfl, spelled⟩ := ih decoded
      exact ⟨Char.ofNat unit.toNat :: more, by simp, by
        rw [List.flatMap_cons, ofChar_plain unit high low, spelled]; rfl⟩
  · rintro ⟨more, rfl, rfl⟩
    induction more generalizing found with
    | nil => simp [decodeOnto]
    | cons c more ih =>
      rw [List.flatMap_cons, decodeOnto_ofChar, ih]
      simp

/-- Units spell a text exactly if they are its encoding. -/
theorem decode_eq_some_iff (units : List UInt16) (text : String) :
    decode units = some text ↔ encode text = units := by
  simp only [decode, encode, Option.map_eq_some_iff, decodeOnto_iff, List.reverse_nil,
    List.nil_append]
  constructor
  · rintro ⟨_, ⟨chars, rfl, spelled⟩, rfl⟩
    rw [String.toList_ofList, spelled]
  · intro spelled
    exact ⟨text.toList, ⟨text.toList, rfl, spelled⟩, String.ofList_toList⟩

/-! ## Surrogates in pairs -/

/-- No surrogate stands alone: right behind a high one there is a low one, and right before a low
one there is a high one. -/
structure Paired (units : List UInt16) : Prop where
  high : ∀ position unit, units[position]? = some unit → isHigh unit = true →
    ∃ low, units[position + 1]? = some low ∧ isLow low = true
  low : ∀ position unit, units[position]? = some unit → isLow unit = true →
    ∃ before high, position = before + 1 ∧ units[before]? = some high ∧ isHigh high = true

theorem not_isLow_of_isHigh {unit : UInt16} (high : isHigh unit = true) : ¬isLow unit = true := by
  rw [isHigh_iff] at high
  rw [isLow_iff]
  omega

theorem paired_nil : Paired [] where
  high := by simp
  low := by simp

theorem paired_plain {unit : UInt16} (high : ¬isHigh unit = true) (low : ¬isLow unit = true)
    (rest : List UInt16) : Paired (unit :: rest) ↔ Paired rest := by
  constructor
  · intro paired
    constructor
    · intro position other here surrogate
      exact paired.high (position + 1) other here surrogate
    · intro position other here surrogate
      obtain ⟨before, partner, next, there, isHigh⟩ := paired.low (position + 1) other here surrogate
      cases before with
      | zero =>
        -- The partner would be the unit in front, which is no surrogate.
        obtain rfl := Option.some.inj there
        exact absurd isHigh high
      | succ before => exact ⟨before, partner, by omega, there, isHigh⟩
  · intro paired
    constructor
    · intro position other here surrogate
      cases position with
      | zero =>
        obtain rfl := Option.some.inj here
        exact absurd surrogate high
      | succ position => exact paired.high position other here surrogate
    · intro position other here surrogate
      cases position with
      | zero =>
        obtain rfl := Option.some.inj here
        exact absurd surrogate low
      | succ position =>
        obtain ⟨before, partner, next, there, isHigh⟩ := paired.low position other here surrogate
        exact ⟨before + 1, partner, by omega, there, isHigh⟩

theorem paired_pair {unit low : UInt16} (first : isHigh unit = true) (second : isLow low = true)
    (rest : List UInt16) : Paired (unit :: low :: rest) ↔ Paired rest := by
  constructor
  · intro paired
    constructor
    · intro position other here surrogate
      exact paired.high (position + 2) other here surrogate
    · intro position other here surrogate
      obtain ⟨before, partner, next, there, isHigh⟩ := paired.low (position + 2) other here surrogate
      rcases before with _ | _ | before
      · omega
      · -- The partner would be the low surrogate of the pair in front.
        obtain rfl := Option.some.inj there
        exact absurd second (not_isLow_of_isHigh isHigh)
      · exact ⟨before, partner, by omega, there, isHigh⟩
  · intro paired
    constructor
    · intro position other here surrogate
      -- Positions behind the pair are two further than those in the rest.
      rcases position with _ | _ | position
      · exact ⟨low, rfl, second⟩
      · obtain rfl := Option.some.inj here
        exact absurd second (not_isLow_of_isHigh surrogate)
      · exact paired.high position other here surrogate
    · intro position other here surrogate
      rcases position with _ | _ | position
      · obtain rfl := Option.some.inj here
        exact absurd surrogate (not_isLow_of_isHigh first)
      · exact ⟨0, unit, rfl, rfl, first⟩
      · obtain ⟨before, partner, next, there, isHigh⟩ := paired.low position other here surrogate
        exact ⟨before + 2, partner, by omega, there, isHigh⟩

private theorem decodeOnto_isSome_iff (found : List Char) (units : List UInt16) :
    (decodeOnto found units).isSome = true ↔ Paired units := by
  fun_induction decodeOnto found units with
  | case1 found => simp [paired_nil]
  | case2 found unit high low rest isLow ih => rw [ih, paired_pair high isLow]
  | case3 found unit high low rest notLow =>
    -- The first unit asks for a low surrogate behind it.
    refine iff_of_false (by simp) fun paired => ?_
    obtain ⟨other, here, isLow⟩ := paired.high 0 unit rfl high
    obtain rfl := Option.some.inj here
    exact notLow isLow
  | case4 found unit high =>
    refine iff_of_false (by simp) fun paired => ?_
    obtain ⟨other, here, -⟩ := paired.high 0 unit rfl high
    cases here
  | case5 found unit rest notHigh low =>
    -- And nothing stands before the first unit.
    refine iff_of_false (by simp) fun paired => ?_
    obtain ⟨before, partner, next, -⟩ := paired.low 0 unit rfl low
    cases next
  | case6 found unit rest notHigh notLow ih => rw [ih, paired_plain notHigh notLow]

/-- Units are those of some text exactly if their surrogates come in pairs. -/
theorem exists_encode_iff (units : List UInt16) :
    (∃ text, encode text = units) ↔ Paired units := by
  rw [← decodeOnto_isSome_iff []]
  simp only [← decode_eq_some_iff, decode, ← Option.isSome_iff_exists, Option.isSome_map]

end JarRemap.Text.Utf16
