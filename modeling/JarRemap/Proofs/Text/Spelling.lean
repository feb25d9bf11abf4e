import JarRemap.Proofs.Text.ModifiedUtf8

/-!
# What bytes spell

Bytes are read as text exactly if they fall into groups, whether or not these are as short as they
could be, and if the surrogates among the units of the groups come in pairs. Text is written in
groups that are all as short as possible, so what was read comes out as it was exactly if its groups
were.
-/

namespace JarRemap.Text.ModifiedUtf8

/-- One, two or three bytes that are read together. -/
inductive IsGroup : Bytes → Prop
  | one {a : UInt8} (lead : 0x01 ≤ a ∧ a ≤ 0x7F) : IsGroup [a]
  | two {a b : UInt8} (lead : 0xC0 ≤ a ∧ a ≤ 0xDF) (second : 0x80 ≤ b ∧ b ≤ 0xBF) :
      IsGroup [a, b]
  | three {a b c : UInt8} (lead : 0xE0 ≤ a ∧ a ≤ 0xEF) (second : 0x80 ≤ b ∧ b ≤ 0xBF)
      (third : 0x80 ≤ c ∧ c ≤ 0xBF) : IsGroup [a, b, c]

/-- The number of a group. Each byte behind the first one stands for six bits. -/
def unitOf : Bytes → UInt16
  | [a] => .ofNat a.toNat
  | [a, b] => .ofNat ((a.toNat - 0xC0) * 64 + (b.toNat - 0x80))
  | [a, b, c] => .ofNat (((a.toNat - 0xE0) * 64 + (b.toNat - 0x80)) * 64 + (c.toNat - 0x80))
  | _ => 0

/-- The bytes fall into these groups. -/
structure Splits (bytes : Bytes) (groups : List Bytes) : Prop where
  each : ∀ group ∈ groups, IsGroup group
  whole : groups.flatten = bytes

/-- No group with the same number is shorter, and zero is spelled with two bytes. -/
structure ShortestForm (group : Bytes) : Prop where
  least : ∀ other, IsGroup other → unitOf other = unitOf group → group.length ≤ other.length
  zero : unitOf group = 0 → group = [0xC0, 0x80]

/-! ## Groups and their numbers -/

private theorem le_le_iff (low a high : UInt8) :
    low ≤ a ∧ a ≤ high ↔ low.toNat ≤ a.toNat ∧ a.toNat < high.toNat + 1 := by
  rw [UInt8.le_iff_toNat_le, UInt8.le_iff_toNat_le, Nat.lt_succ_iff]

private theorem unitOf_one {a : UInt8} : unitOf [a] = a.toUInt16 := by
  have bound := a.toNat_lt
  rw [unitOf, ← UInt16.toNat_inj, UInt8.toNat_toUInt16, UInt16.toNat_ofNat']
  omega

private theorem unitOf_two {a b : UInt8} (lead : 0xC0 ≤ a.toNat ∧ a.toNat < 0xE0)
    (second : 0x80 ≤ b.toNat ∧ b.toNat < 0xC0) : unitOf [a, b] = pairUnit a b := by
  rw [unitOf, ← UInt16.toNat_inj, pairUnit_toNat, UInt16.toNat_ofNat']
  omega

private theorem unitOf_three {a b c : UInt8} (lead : 0xE0 ≤ a.toNat ∧ a.toNat < 0xF0)
    (second : 0x80 ≤ b.toNat ∧ b.toNat < 0xC0) (third : 0x80 ≤ c.toNat ∧ c.toNat < 0xC0) :
    unitOf [a, b, c] = tripleUnit a b c := by
  rw [unitOf, ← UInt16.toNat_inj, tripleUnit_toNat, UInt16.toNat_ofNat']
  omega

/-- What the reader takes for a group of a unit is a group with its number. -/
theorem group_iff (unit : UInt16) (bytes : Bytes) :
    Group unit bytes ↔ IsGroup bytes ∧ unitOf bytes = unit := by
  constructor
  · intro spelled
    cases spelled with
    | one nonzero small => exact ⟨.one ((le_le_iff _ _ _).mpr ⟨nonzero, small⟩), unitOf_one⟩
    | two lead second =>
      exact ⟨.two ((le_le_iff _ _ _).mpr lead) ((le_le_iff _ _ _).mpr second),
        unitOf_two lead second⟩
    | three lead second third =>
      exact ⟨.three ((le_le_iff _ _ _).mpr lead) ((le_le_iff _ _ _).mpr second)
        ((le_le_iff _ _ _).mpr third), unitOf_three lead second third⟩
  · rintro ⟨isGroup, rfl⟩
    cases isGroup with
    | one lead =>
      rw [le_le_iff] at lead
      rw [unitOf_one]
      exact .one lead.1 lead.2
    | two lead second =>
      rw [le_le_iff] at lead second
      rw [unitOf_two lead second]
      exact .two lead second
    | three lead second third =>
      rw [le_le_iff] at lead second third
      rw [unitOf_three lead second third]
      exact .three lead second third

theorem forall₂_group_iff (units : List UInt16) (groups : List Bytes) :
    List.Forall₂ Group units groups ↔
      (∀ group ∈ groups, IsGroup group) ∧ groups.map unitOf = units := by
  induction groups generalizing units with
  | nil => simp [eq_comm]
  | cons group groups ih =>
    cases units with
    | nil => simp
    | cons unit units =>
      rw [List.forall₂_cons, group_iff, ih, List.forall_mem_cons, List.map_cons, List.cons.injEq]
      tauto

private theorem bounded {low byte high : UInt8} (inside : low ≤ byte ∧ byte ≤ high) (positive : 0 < low)
    (below : high ≤ 0xEF) : byte ≠ 0 ∧ byte ≤ 0xEF := by
  constructor
  · rintro rfl
    exact UInt8.not_le.mpr positive inside.1
  · exact UInt8.le_trans inside.2 below

/-- No byte of a group is zero, and none is above the greatest first byte. -/
theorem IsGroup.bytes {group : Bytes} (isGroup : IsGroup group) :
    ∀ byte ∈ group, byte ≠ 0 ∧ byte ≤ 0xEF := by
  cases isGroup with
  | one lead => simpa using bounded lead (by decide) (by decide)
  | two lead second =>
    have first := bounded lead (by decide) (by decide)
    have last := bounded second (by decide) (by decide)
    simp [first, last]
  | three lead second third =>
    have first := bounded lead (by decide) (by decide)
    have middle := bounded second (by decide) (by decide)
    have last := bounded third (by decide) (by decide)
    simp [first, middle, last]

/-- How long a group with this first byte is. -/
def lengthFrom (lead : UInt8) : Nat := if lead < 0x80 then 1 else if lead < 0xE0 then 2 else 3

theorem IsGroup.length_eq {group : Bytes} (isGroup : IsGroup group) :
    ∃ lead others, group = lead :: others ∧ group.length = lengthFrom lead := by
  have outside {low byte limit : UInt8} (above : low ≤ byte) (past : limit ≤ low) : ¬byte < limit :=
    UInt8.not_lt.mpr (UInt8.le_trans past above)
  have within {byte high limit : UInt8} (below : byte ≤ high) (short : high < limit) : byte < limit :=
    UInt8.lt_of_le_of_lt below short
  -- The ranges of first bytes do not overlap, so the first byte tells the width.
  cases isGroup with
  | @one a lead =>
    refine ⟨a, [], rfl, ?_⟩
    rw [lengthFrom, if_pos (within lead.2 (by decide))]
    rfl
  | @two a b lead =>
    refine ⟨a, [b], rfl, ?_⟩
    rw [lengthFrom, if_neg (outside lead.1 (by decide)), if_pos (within lead.2 (by decide))]
    rfl
  | @three a b c lead =>
    refine ⟨a, [b, c], rfl, ?_⟩
    rw [lengthFrom, if_neg (outside lead.1 (by decide)), if_neg (outside lead.1 (by decide))]
    rfl

/-- Bytes begin with one group only, as its first byte says how long it is. -/
theorem IsGroup.append_inj {group other rest more : Bytes} (isGroup : IsGroup group)
    (otherIsGroup : IsGroup other) (same : group ++ rest = other ++ more) :
    group = other ∧ rest = more := by
  obtain ⟨lead, others, rfl, length⟩ := isGroup.length_eq
  obtain ⟨otherLead, otherOthers, rfl, otherLength⟩ := otherIsGroup.length_eq
  obtain ⟨rfl, -⟩ := List.cons.inj same
  exact List.append_inj same (length.trans otherLength.symm)

/-! ## Shortest groups -/

theorem group_unit (unit : UInt16) : IsGroup (group unit) ∧ unitOf (group unit) = unit :=
  (group_iff unit _).mp (group_isGroup unit)

/-- The shortest form of a group is what the writer writes for its number. -/
theorem shortestForm_iff {bytes : Bytes} (isGroup : IsGroup bytes) :
    ShortestForm bytes ↔ bytes = group (unitOf bytes) := by
  have spelled : Group (unitOf bytes) bytes := (group_iff _ _).mpr ⟨isGroup, rfl⟩
  constructor
  · intro shortest
    obtain ⟨written, number⟩ := group_unit (unitOf bytes)
    have least := shortest.least _ written number
    rw [group_length] at least
    exact spelled.eq_group (Nat.le_antisymm least spelled.width_le)
  · intro written
    constructor
    · intro other otherIsGroup number
      -- Both are groups of one unit, so the other one has at least its width.
      have otherSpelled : Group (unitOf bytes) other := (group_iff _ _).mpr ⟨otherIsGroup, number⟩
      rw [written, group_length]
      exact otherSpelled.width_le
    · intro zero
      rw [written, zero]
      rfl

/-- Groups are written as they were read if all of them are shortest ones. -/
theorem flatten_written_iff {groups : List Bytes} (each : ∀ group ∈ groups, IsGroup group) :
    ((groups.map unitOf).map group).flatten = groups.flatten ↔ ∀ group ∈ groups, ShortestForm group := by
  induction groups with
  | nil => simp
  | cons bytes groups ih =>
    rw [List.forall_mem_cons] at each
    rw [List.forall_mem_cons, ← ih each.2, shortestForm_iff each.1]
    simp only [List.map_cons, List.flatten_cons]
    constructor
    · intro same
      obtain ⟨first, others⟩ := (group_unit (unitOf bytes)).1.append_inj each.1 same
      exact ⟨first.symm, others⟩
    · rintro ⟨first, others⟩
      rw [others, ← first]

/-! ## Reading and writing -/

theorem units_ok_iff_splits (bytes : Bytes) (units_ : List UInt16) :
    units bytes = .ok units_ ↔ ∃ groups, Splits bytes groups ∧ groups.map unitOf = units_ := by
  rw [units_ok_iff]
  simp only [forall₂_group_iff]
  constructor
  · rintro ⟨groups, ⟨each, numbers⟩, whole⟩
    exact ⟨groups, ⟨each, whole⟩, numbers⟩
  · rintro ⟨groups, ⟨each, whole⟩, numbers⟩
    exact ⟨groups, ⟨each, numbers⟩, whole⟩

theorem decode_written (text : String) : decode (encode text) = .ok text := by
  rw [decode, decodeLenient_encode]
  rfl

theorem encode_bytes (text : String) : ∀ byte ∈ encode text, byte ≠ 0 ∧ byte ≤ 0xEF := by
  intro byte member
  obtain ⟨unit, -, part⟩ := List.mem_flatMap.mp member
  exact (group_unit unit).1.bytes byte part

theorem exists_decodeLenient_iff (bytes : Bytes) :
    (∃ found, decodeLenient bytes = .ok found) ↔ ∃ groups, Splits bytes groups := by
  have read : (∃ found, decodeLenient bytes = .ok found) ↔ ∃ numbers, units bytes = .ok numbers := by
    rw [decodeLenient_eq]
    cases units bytes <;> simp [Functor.map, Except.map]
  rw [read]
  simp only [units_ok_iff_splits]
  constructor
  · rintro ⟨_, groups, splits, -⟩
    exact ⟨groups, splits⟩
  · rintro ⟨groups, splits⟩
    exact ⟨_, groups, splits, rfl⟩

/-- The text that is read is the one with the numbers of the groups for its units. -/
theorem Splits.text_iff {bytes : Bytes} {groups : List Bytes} (splits : Splits bytes groups)
    (text : String) :
    decodeLenient bytes = .ok (some text) ↔ Utf16.encode text = groups.map unitOf := by
  have read := (units_ok_iff_splits bytes _).mpr ⟨groups, splits, rfl⟩
  rw [decodeLenient_text_iff, read, Except.ok.injEq, eq_comm]

/-- What is written is read as it was, and has no zero byte and none above `EF`. Bytes can be read
exactly if they fall into groups. They are a text exactly if the units of the groups have no unpaired
surrogate, and then it is the text of these units. It is written as the same bytes exactly if all
groups have the shortest form. -/
theorem decodes_groups :
    (∀ text, decode (encode text) = .ok text ∧ ∀ byte ∈ encode text, byte ≠ 0 ∧ byte ≤ 0xEF) ∧
      ∀ bytes,
        ((∃ found, decodeLenient bytes = .ok found) ↔ ∃ groups, Splits bytes groups) ∧
          ∀ groups, Splits bytes groups →
            ((∃ text, decodeLenient bytes = .ok (some text)) ↔ Utf16.Paired (groups.map unitOf)) ∧
              ∀ text, decodeLenient bytes = .ok (some text) →
                Utf16.encode text = groups.map unitOf ∧
                  (encode text = bytes ↔ ∀ group ∈ groups, ShortestForm group) := by
  refine ⟨fun text => ⟨decode_written text, encode_bytes text⟩, fun bytes => ?_⟩
  refine ⟨exists_decodeLenient_iff bytes, fun groups splits => ⟨?_, fun text read => ?_⟩⟩
  · simp only [splits.text_iff]
    exact Utf16.exists_encode_iff _
  · have units := (splits.text_iff text).mp read
    refine ⟨units, ?_⟩
    rw [← flatten_written_iff splits.each, splits.whole, ← units, encode, List.flatMap_def]

/-- Two letters, of which the second is spelled with a byte too many, a zero, and a pair of
surrogates. -/
theorem decodes_groups_overlong :
    let groups : List Bytes :=
      [[0x41], [0xC1, 0x81], [0xC0, 0x80], [0xED, 0xA0, 0xBD], [0xED, 0xB8, 0x80]]
    Splits groups.flatten groups ∧ decodeLenient groups.flatten = .ok (some "AA\x00😀") ∧
      Utf16.Paired (groups.map unitOf) ∧ Utf16.encode "AA\x00😀" = groups.map unitOf ∧
      ¬∀ group ∈ groups, ShortestForm group := by
  intro groups
  have splits : Splits groups.flatten groups := by
    refine ⟨?_, rfl⟩
    simp only [groups, List.forall_mem_cons]
    exact ⟨.one (by decide), .two (by decide) (by decide), .two (by decide) (by decide),
      .three (by decide) (by decide) (by decide), .three (by decide) (by decide) (by decide), by simp⟩
  have read : decodeLenient groups.flatten = .ok (some "AA\x00😀") := by decide
  obtain ⟨paired, told⟩ := (decodes_groups.2 groups.flatten).2 groups splits
  obtain ⟨units, exact_⟩ := told _ read
  exact ⟨splits, read, paired.mp ⟨_, read⟩, units, mt exact_.mpr (by decide)⟩

end JarRemap.Text.ModifiedUtf8
