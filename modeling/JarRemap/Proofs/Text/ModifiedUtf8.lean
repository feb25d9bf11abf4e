import JarRemap.Text.ModifiedUtf8
import JarRemap.Proofs.Bytes
import JarRemap.Proofs.Text.Utf16
import Mathlib.Data.List.Forall2

/-!
# Groups of modified UTF-8

A reader accepts any group of one, two or three bytes for a unit, a writer writes the shortest one.
So text that was read is written back as the same bytes exactly if all of its groups were the
shortest, and it never gets longer.
-/

namespace JarRemap.Text.ModifiedUtf8

/-- Bytes that may be read as one unit, not only the shortest ones. -/
inductive Group : UInt16 → Bytes → Prop
  | one {a : UInt8} (nonzero : 0 < a.toNat) (small : a.toNat < 0x80) : Group a.toUInt16 [a]
  | two {a b : UInt8} (lead : 0xC0 ≤ a.toNat ∧ a.toNat < 0xE0)
      (second : 0x80 ≤ b.toNat ∧ b.toNat < 0xC0) : Group (pairUnit a b) [a, b]
  | three {a b c : UInt8} (lead : 0xE0 ≤ a.toNat ∧ a.toNat < 0xF0)
      (second : 0x80 ≤ b.toNat ∧ b.toNat < 0xC0) (third : 0x80 ≤ c.toNat ∧ c.toNat < 0xC0) :
      Group (tripleUnit a b c) [a, b, c]

/-- The least number of bytes for a unit: one for U+0001 to U+007F, two for U+0000 and U+0080 to
U+07FF, and three for the others. -/
def width (unit : UInt16) : Nat :=
  if unit = 0 then 2 else if unit < 0x80 then 1 else if unit < 0x800 then 2 else 3

/-- Bytes that fall into groups, all of which are as short as they can be. -/
def Shortest (bytes : Bytes) : Prop :=
  ∃ units groups, List.Forall₂ (fun unit group => Group unit group ∧ group.length = width unit)
    units groups ∧ groups.flatten = bytes

/-! ## The kinds of bytes -/

private theorem ascii_iff (a : UInt8) : (a &&& 0x80 == 0) = true ↔ a.toNat < 0x80 := by
  obtain ⟨⟨a⟩⟩ := a
  revert a
  decide +kernel

private theorem lead_two_iff (a : UInt8) :
    (a &&& 0xE0 == 0xC0) = true ↔ 0xC0 ≤ a.toNat ∧ a.toNat < 0xE0 := by
  obtain ⟨⟨a⟩⟩ := a
  revert a
  decide +kernel

private theorem lead_three_iff (a : UInt8) :
    (a &&& 0xF0 == 0xE0) = true ↔ 0xE0 ≤ a.toNat ∧ a.toNat < 0xF0 := by
  obtain ⟨⟨a⟩⟩ := a
  revert a
  decide +kernel

private theorem continues_iff (a : UInt8) :
    continues a = true ↔ 0x80 ≤ a.toNat ∧ a.toNat < 0xC0 := by
  obtain ⟨⟨a⟩⟩ := a
  revert a
  decide +kernel

private theorem and_low_toNat (a : UInt8) : (a &&& 0x3F).toNat = a.toNat % 64 ∧
    (a &&& 0x1F).toNat = a.toNat % 32 ∧ (a &&& 0x0F).toNat = a.toNat % 16 := by
  simp only [UInt8.toNat_and]
  exact ⟨Nat.and_two_pow_sub_one_eq_mod _ 6, Nat.and_two_pow_sub_one_eq_mod _ 5,
    Nat.and_two_pow_sub_one_eq_mod _ 4⟩

theorem pairUnit_toNat (a b : UInt8) :
    (pairUnit a b).toNat = a.toNat % 32 * 64 + b.toNat % 64 := by
  have shift : UInt16.toNat 6 % 16 = 6 := rfl
  simp only [pairUnit, UInt16.toNat_or, UInt16.toNat_shiftLeft, UInt8.toNat_toUInt16,
    and_low_toNat, shift, Nat.shiftLeft_eq]
  rw [Nat.mod_eq_of_lt (by omega)]
  exact Bytes.or_eq_add _ _ 6 (by omega)

theorem tripleUnit_toNat (a b c : UInt8) : (tripleUnit a b c).toNat =
    (a.toNat % 16 * 64 + b.toNat % 64) * 64 + c.toNat % 64 := by
  have shift6 : UInt16.toNat 6 % 16 = 6 := rfl
  have shift12 : UInt16.toNat 12 % 16 = 12 := rfl
  simp only [tripleUnit, UInt16.toNat_or, UInt16.toNat_shiftLeft, UInt8.toNat_toUInt16,
    and_low_toNat, shift6, shift12, Nat.shiftLeft_eq]
  have first : a.toNat % 16 * 2 ^ 12 % 2 ^ 16 = a.toNat % 16 * 2 ^ 12 :=
    Nat.mod_eq_of_lt (by omega)
  have second : b.toNat % 64 * 2 ^ 6 % 2 ^ 16 = b.toNat % 64 * 2 ^ 6 := Nat.mod_eq_of_lt (by omega)
  have upper : a.toNat % 16 * 2 ^ 12 ||| b.toNat % 64 * 2 ^ 6 =
      (a.toNat % 16 * 64 + b.toNat % 64) * 2 ^ 6 := by
    rw [Bytes.or_eq_add _ _ 12 (by omega)]
    omega
  rw [first, second, upper]
  exact Bytes.or_eq_add _ _ 6 (by omega)

/-! ## The group that is written -/

private theorem two_toNat (unit : UInt16) (small : unit.toNat < 0x800) :
    ((0xC0 : UInt8) ||| (unit >>> 6).toUInt8).toNat = 192 + unit.toNat / 64 := by
  have shift : UInt16.toNat 6 % 16 = 6 := rfl
  have value : (unit >>> 6).toUInt8.toNat = unit.toNat / 64 := by
    rw [UInt16.toNat_toUInt8, UInt16.toNat_shiftRight, shift, Nat.shiftRight_eq_div_pow]
    omega
  rw [UInt8.toNat_or, value]
  exact Bytes.or_eq_add 6 _ 5 (by omega)

private theorem three_toNat (unit : UInt16) :
    ((0xE0 : UInt8) ||| (unit >>> 12).toUInt8).toNat = 224 + unit.toNat / 4096 := by
  have bound := unit.toNat_lt
  have shift : UInt16.toNat 12 % 16 = 12 := rfl
  have value : (unit >>> 12).toUInt8.toNat = unit.toNat / 4096 := by
    rw [UInt16.toNat_toUInt8, UInt16.toNat_shiftRight, shift, Nat.shiftRight_eq_div_pow]
    omega
  rw [UInt8.toNat_or, value]
  exact Bytes.or_eq_add 14 _ 4 (by omega)

/-- A continuing byte holds the lowest six bits of what it is made of. -/
private theorem more_toNat (part : UInt16) :
    ((0x80 : UInt8) ||| (part &&& 0x3F).toUInt8).toNat = 128 + part.toNat % 64 := by
  have low : (part &&& 0x3F).toNat = part.toNat % 64 := by
    rw [UInt16.toNat_and]
    exact Nat.and_two_pow_sub_one_eq_mod _ 6
  have value : (part &&& 0x3F).toUInt8.toNat = part.toNat % 64 := by
    rw [UInt16.toNat_toUInt8, low]
    omega
  rw [UInt8.toNat_or, value]
  exact Bytes.or_eq_add 2 _ 6 (by omega)

private theorem middle_toNat (unit : UInt16) : (unit >>> 6).toNat = unit.toNat / 64 := by
  have shift : UInt16.toNat 6 % 16 = 6 := rfl
  rw [UInt16.toNat_shiftRight, shift, Nat.shiftRight_eq_div_pow]

private theorem width_cases (unit : UInt16) :
    (width unit = 1 ∧ 0 < unit.toNat ∧ unit.toNat < 0x80 ∧ group unit = [unit.toUInt8]) ∨
    (width unit = 2 ∧ (unit.toNat = 0 ∨ 0x80 ≤ unit.toNat) ∧ unit.toNat < 0x800 ∧
      group unit = [(0xC0 : UInt8) ||| (unit >>> 6).toUInt8,
        (0x80 : UInt8) ||| (unit &&& 0x3F).toUInt8]) ∨
    (width unit = 3 ∧ 0x800 ≤ unit.toNat ∧
      group unit = [(0xE0 : UInt8) ||| (unit >>> 12).toUInt8,
        (0x80 : UInt8) ||| ((unit >>> 6) &&& 0x3F).toUInt8,
        (0x80 : UInt8) ||| (unit &&& 0x3F).toUInt8]) := by
  have low : unit < 0x80 ↔ unit.toNat < 0x80 := UInt16.lt_iff_toNat_lt
  have high : unit < 0x800 ↔ unit.toNat < 0x800 := UInt16.lt_iff_toNat_lt
  have above : 0x80 ≤ unit ↔ 0x80 ≤ unit.toNat := UInt16.le_iff_toNat_le
  have zero : unit = 0 ↔ unit.toNat = 0 := UInt16.toNat_inj.symm
  simp only [width, group, Bool.or_eq_true, Bool.and_eq_true, decide_eq_true_eq, low, high, above,
    zero]
  -- The cases stand in the order in which the writer tells them apart.
  by_cases nothing : unit.toNat = 0
  · simp [nothing]
  by_cases ascii : unit.toNat < 0x80
  · simp [nothing, ascii, show ¬0x80 ≤ unit.toNat by omega]
    omega
  by_cases small : unit.toNat < 0x800
  · simp [nothing, ascii, small, show 0x80 ≤ unit.toNat by omega]
  · simp [nothing, ascii, small]
    omega

/-- What is written for a unit may be read as the unit. -/
theorem group_isGroup (unit : UInt16) : Group unit (group unit) := by
  have bound := unit.toNat_lt
  -- One case for each width. The bits that were taken apart are put together to the same unit
  -- again.
  rcases width_cases unit with ⟨-, nonzero, small, written⟩ | ⟨-, -, small, written⟩ |
    ⟨-, large, written⟩
  · have value : unit.toUInt8.toNat = unit.toNat := by
      rw [UInt16.toNat_toUInt8]
      omega
    have same : unit.toUInt8.toUInt16 = unit := by
      rw [← UInt16.toNat_inj, UInt8.toNat_toUInt16, value]
    rw [written]
    nth_rewrite 1 [← same]
    exact .one (by omega) (by omega)
  · have first := two_toNat unit small
    have second := more_toNat unit
    have same : pairUnit ((0xC0 : UInt8) ||| (unit >>> 6).toUInt8)
        ((0x80 : UInt8) ||| (unit &&& 0x3F).toUInt8) = unit := by
      rw [← UInt16.toNat_inj, pairUnit_toNat, first, second]
      omega
    rw [written]
    nth_rewrite 1 [← same]
    exact .two (by omega) (by omega)
  · have first := three_toNat unit
    have second := more_toNat (unit >>> 6)
    have third := more_toNat unit
    rw [middle_toNat] at second
    have same : tripleUnit ((0xE0 : UInt8) ||| (unit >>> 12).toUInt8)
        ((0x80 : UInt8) ||| ((unit >>> 6) &&& 0x3F).toUInt8)
        ((0x80 : UInt8) ||| (unit &&& 0x3F).toUInt8) = unit := by
      rw [← UInt16.toNat_inj, tripleUnit_toNat, first, second, third]
      omega
    rw [written]
    nth_rewrite 1 [← same]
    exact .three (by omega) (by omega) (by omega)

theorem group_length (unit : UInt16) : (group unit).length = width unit := by
  rcases width_cases unit with ⟨width, -, -, written⟩ | ⟨width, -, -, written⟩ |
    ⟨width, -, written⟩ <;> rw [width, written] <;> rfl

/-- No group is shorter than the one that is written. -/
theorem Group.width_le {unit : UInt16} {bytes : Bytes} (spelled : Group unit bytes) :
    width unit ≤ bytes.length := by
  cases spelled with
  | @one a nonzero small =>
    have value : a.toUInt16.toNat = a.toNat := UInt8.toNat_toUInt16 a
    rcases width_cases a.toUInt16 with ⟨width, -⟩ | ⟨-, range, -⟩ | ⟨-, large, -⟩
    · rw [width, List.length_singleton]
    · omega
    · omega
  | @two a b lead second =>
    have value := pairUnit_toNat a b
    rcases width_cases (pairUnit a b) with ⟨width, -⟩ | ⟨width, -⟩ | ⟨-, large, -⟩
    · simp [width]
    · simp [width]
    · omega
  | @three a b c lead second third =>
    rcases width_cases (tripleUnit a b c) with ⟨width, -⟩ | ⟨width, -⟩ | ⟨width, -⟩ <;> simp [width]

/-- The only group as short as the one that is written is that one. -/
theorem Group.eq_group {unit : UInt16} {bytes : Bytes} (spelled : Group unit bytes)
    (short : bytes.length = width unit) : bytes = group unit := by
  -- A group of another width than the unit needs has another length, so only one case of each is
  -- left.
  cases spelled with
  | @one a nonzero small =>
    have same : a.toUInt16.toUInt8 = a := UInt8.toUInt8_toUInt16 a
    rcases width_cases a.toUInt16 with ⟨-, -, -, written⟩ | ⟨width, -⟩ | ⟨width, -⟩
    · rw [written, same]
    · simp [width] at short
    · simp [width] at short
  | @two a b lead second =>
    have value := pairUnit_toNat a b
    rcases width_cases (pairUnit a b) with ⟨width, -⟩ | ⟨-, -, small, written⟩ | ⟨width, -⟩
    · simp [width] at short
    · have first := two_toNat (pairUnit a b) small
      have last := more_toNat (pairUnit a b)
      rw [written]
      simp only [List.cons.injEq, and_true, ← UInt8.toNat_inj, first, last, value]
      omega
    · simp [width] at short
  | @three a b c lead second third =>
    have value := tripleUnit_toNat a b c
    rcases width_cases (tripleUnit a b c) with ⟨width, -⟩ | ⟨width, -⟩ | ⟨-, -, written⟩
    · simp [width] at short
    · simp [width] at short
    · have first := three_toNat (tripleUnit a b c)
      have middle := more_toNat (tripleUnit a b c >>> 6)
      have last := more_toNat (tripleUnit a b c)
      rw [middle_toNat] at middle
      rw [written]
      simp only [List.cons.injEq, and_true, ← UInt8.toNat_inj, first, middle, last, value]
      omega

/-! ## Reading -/

/-- A group in front is read as its unit. -/
private theorem unitsOnto_group {unit : UInt16} {bytes : Bytes} (spelled : Group unit bytes)
    (offset : Nat) (found : List UInt16) (rest : Bytes) :
    unitsOnto offset found (bytes ++ rest) =
      unitsOnto (offset + bytes.length) (unit :: found) rest := by
  -- The reader tells the groups apart by the high bits of the first byte.
  cases spelled with
  | @one a nonzero small =>
    have ascii := (ascii_iff a).mpr small
    have other : ¬(a == 0) = true := by
      rw [beq_iff_eq, ← UInt8.toNat_inj]
      exact Nat.pos_iff_ne_zero.mp nonzero
    rw [List.singleton_append, unitsOnto.eq_def]
    simp [ascii, other]
  | @two a b lead second =>
    have plain : ¬(a &&& 0x80 == 0) = true := by
      rw [ascii_iff]
      omega
    have first := (lead_two_iff a).mpr lead
    have more := (continues_iff b).mpr second
    simp only [List.cons_append, List.nil_append]
    rw [unitsOnto.eq_def]
    simp [plain, first, more]
  | @three a b c lead second third =>
    have plain : ¬(a &&& 0x80 == 0) = true := by
      rw [ascii_iff]
      omega
    have two : ¬(a &&& 0xE0 == 0xC0) = true := by
      rw [lead_two_iff]
      omega
    have first := (lead_three_iff a).mpr lead
    have more := (continues_iff b).mpr second
    have last := (continues_iff c).mpr third
    simp only [List.cons_append, List.nil_append]
    rw [unitsOnto.eq_def]
    simp [plain, two, first, more, last]

/-- A spelling of the rest with a group in front of it. -/
private theorem spelled_cons {unit : UInt16} {group rest : Bytes} {found all : List UInt16}
    (first : Group unit group)
    (others : ∃ more groups, all = (unit :: found).reverse ++ more ∧
      List.Forall₂ Group more groups ∧ groups.flatten = rest) :
    ∃ more groups, all = found.reverse ++ more ∧ List.Forall₂ Group more groups ∧
      groups.flatten = group ++ rest := by
  obtain ⟨more, groups, rfl, spelled, rfl⟩ := others
  exact ⟨unit :: more, group :: groups, by simp, .cons first spelled, rfl⟩

private theorem unitsOnto_ok_iff (offset : Nat) (found all : List UInt16) (bytes : Bytes) :
    unitsOnto offset found bytes = .ok all ↔
      ∃ more groups, all = found.reverse ++ more ∧ List.Forall₂ Group more groups ∧
        groups.flatten = bytes := by
  constructor
  · intro read
    -- A group is read in the cases that stand here; in all others the reader fails.
    fun_induction unitsOnto offset found bytes with
    | case1 offset found =>
      obtain rfl := Except.ok.inj read
      exact ⟨[], [], by simp, .nil, rfl⟩
    | case3 offset found a rest ascii nonzero ih =>
      rw [beq_iff_eq, ← UInt8.toNat_inj] at nonzero
      exact spelled_cons (.one (Nat.pos_of_ne_zero nonzero) ((ascii_iff a).mp ascii)) (ih read)
    | case4 offset found a plain lead b rest second ih =>
      exact spelled_cons (.two ((lead_two_iff a).mp lead) ((continues_iff b).mp second)) (ih read)
    | case7 offset found a plain two lead b c rest second third ih =>
      exact spelled_cons (.three ((lead_three_iff a).mp lead) ((continues_iff b).mp second)
        ((continues_iff c).mp third)) (ih read)
    | _ => cases read
  · rintro ⟨more, groups, rfl, spelled, rfl⟩
    induction spelled generalizing offset found with
    | nil => simp [unitsOnto]
    | @cons unit group more groups first others ih =>
      rw [List.flatten_cons, unitsOnto_group first, ih]
      simp

/-- Bytes are read as units exactly if they fall into groups of these units. -/
theorem units_ok_iff (bytes : Bytes) (all : List UInt16) :
    units bytes = .ok all ↔ ∃ groups, List.Forall₂ Group all groups ∧ groups.flatten = bytes := by
  rw [units, unitsOnto_ok_iff]
  constructor
  · rintro ⟨more, groups, rfl, spelled, whole⟩
    exact ⟨groups, spelled, whole⟩
  · rintro ⟨groups, spelled, whole⟩
    exact ⟨all, groups, rfl, spelled, whole⟩

/-! ### Plain text -/

theorem isPlain_iff (a : UInt8) : isPlain a = true ↔ 0 < a.toNat ∧ a.toNat < 0x80 := by
  obtain ⟨⟨a⟩⟩ := a
  revert a
  decide +kernel

private theorem unitsOnto_plain (offset : Nat) (found : List UInt16) {bytes : Bytes}
    (plain : bytes.all isPlain) :
    unitsOnto offset found bytes = .ok (found.reverse ++ bytes.map UInt8.toUInt16) := by
  induction bytes generalizing offset found with
  | nil => simp [unitsOnto]
  | cons a bytes ih =>
    rw [List.all_cons, Bool.and_eq_true, isPlain_iff] at plain
    rw [← List.singleton_append, unitsOnto_group (.one plain.1.1 plain.1.2), ih _ _ plain.2]
    simp

private theorem encode_plainText {bytes : Bytes} (plain : bytes.all isPlain) :
    Utf16.encode (plainText bytes) = bytes.map UInt8.toUInt16 := by
  rw [Utf16.encode, plainText, String.toList_ofList, List.flatMap_map, List.map_eq_flatMap]
  refine List.flatMap_congr fun a member => ?_
  have small := (isPlain_iff a).mp (List.all_eq_true.mp plain a member)
  have value : a.toUInt16.toNat = a.toNat := UInt8.toNat_toUInt16 a
  rw [← value]
  refine Utf16.ofChar_plain _ ?_ ?_
  · rw [Utf16.isHigh_iff]
    omega
  · rw [Utf16.isLow_iff]
    omega

/-- Plain text is read as any other text would be. -/
theorem decodeLenient_eq (bytes : Bytes) : decodeLenient bytes = Utf16.decode <$> units bytes := by
  rw [decodeLenient]
  split
  next plain =>
    have text := (Utf16.decode_eq_some_iff _ _).mpr (encode_plainText plain)
    rw [units, unitsOnto_plain 0 [] plain, List.reverse_nil, List.nil_append]
    exact congrArg Except.ok text.symm
  next => rfl

/-! ### Any text -/

theorem decodeLenient_text_iff (bytes : Bytes) (text : String) :
    decodeLenient bytes = .ok (some text) ↔ units bytes = .ok (Utf16.encode text) := by
  rw [decodeLenient_eq]
  cases units bytes with
  | error offset => simp [Functor.map, Except.map]
  | ok all =>
    simp only [Functor.map, Except.map, Except.ok.injEq, Utf16.decode_eq_some_iff]
    exact eq_comm

/-! ## Writing what was read -/

private theorem encode_eq_flatten (text : String) :
    encode text = ((Utf16.encode text).map group).flatten := by
  rw [encode, List.flatMap_def]

theorem decodeLenient_encode (text : String) : decodeLenient (encode text) = .ok (some text) := by
  rw [decodeLenient_text_iff, units_ok_iff]
  refine ⟨(Utf16.encode text).map group, ?_, (encode_eq_flatten text).symm⟩
  rw [List.forall₂_map_right_iff, List.forall₂_same]
  exact fun unit _ => group_isGroup unit

/-- Text is never written longer than it was read. -/
theorem encode_length_le (bytes : Bytes) (text : String)
    (read : decodeLenient bytes = .ok (some text)) : (encode text).length ≤ bytes.length := by
  rw [decodeLenient_text_iff, units_ok_iff] at read
  obtain ⟨groups, spelled, rfl⟩ := read
  rw [encode_eq_flatten]
  -- What the units are does not matter from here on, only that each has a group.
  generalize Utf16.encode text = all at spelled
  induction spelled with
  | nil => simp
  | @cons unit part units groups first _ ih =>
    have shorter := first.width_le
    simp only [List.map_cons, List.flatten_cons, List.length_append, group_length]
    omega

/-- Text is written as it was read exactly if each of its groups was as short as it can be. -/
theorem encode_eq_iff (bytes : Bytes) (text : String)
    (read : decodeLenient bytes = .ok (some text)) : encode text = bytes ↔ Shortest bytes := by
  constructor
  · rintro rfl
    refine ⟨Utf16.encode text, (Utf16.encode text).map group, ?_, (encode_eq_flatten text).symm⟩
    rw [List.forall₂_map_right_iff, List.forall₂_same]
    exact fun unit _ => ⟨group_isGroup unit, group_length unit⟩
  · rintro ⟨all, groups, short, rfl⟩
    -- Bytes are read as one list of units only, so the groups are groups of the units of the text.
    have spelled := short.imp fun unit part both => both.1
    have found : units groups.flatten = .ok all := (units_ok_iff _ _).mpr ⟨groups, spelled, rfl⟩
    rw [(decodeLenient_text_iff _ _).mp read, Except.ok.injEq] at found
    rw [encode_eq_flatten, found]
    clear read found spelled
    induction short with
    | nil => rfl
    | @cons unit part all groups first _ ih =>
      rw [List.map_cons, List.flatten_cons, List.flatten_cons, ih, first.1.eq_group first.2]

end JarRemap.Text.ModifiedUtf8
