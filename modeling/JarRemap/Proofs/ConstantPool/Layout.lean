import JarRemap.Proofs.ConstantPool.Format

/-!
# Where the unusable slots are

The slots of a pool can be told apart into constants if the unusable ones stand where the constants
before them put them, and nowhere else.
-/

namespace JarRemap

open Constant Text

/-- A slot behind another one is unusable exactly if that one holds a wide constant. -/
def Constant.Laid (slots : List Constant) : Prop :=
  ∀ slot, slots[slot + 1]? = some unusable ↔ ∃ entry, slots[slot]? = some entry ∧ entry.isWide

private theorem laid_singleton (entry : Constant) : Laid [entry] ↔ entry.isWide = false := by
  constructor
  · intro laid
    have only := laid 0
    simpa using only
  · intro narrow slot
    cases slot <;> simp [narrow]

private theorem laid_cons_cons (first second : Constant) (rest : List Constant) :
    Laid (first :: second :: rest) ↔
      (second = unusable ↔ first.isWide) ∧ Laid (second :: rest) := by
  constructor
  · intro laid
    exact ⟨by simpa using laid 0, fun slot => by simpa using laid (slot + 1)⟩
  · rintro ⟨here, there⟩ slot
    cases slot with
    | zero => simpa using here
    | succ slot => simpa using there slot

/-- Behind a slot that is not wide stand the slots of some constants. -/
private theorem exists_constants : ∀ (entry : Constant) (behind : List Constant),
    entry.isWide = false → Laid (entry :: behind) →
    ∃ constants : List Constant, behind = constants.flatMap Constant.slots ∧
      ∀ constant ∈ constants, constant ≠ unusable
  | _, [], _, _ => ⟨[], rfl, by simp⟩
  | entry, constant :: rest, narrow, laid => by
    obtain ⟨here, there⟩ := (laid_cons_cons entry constant rest).mp laid
    have usable : constant ≠ unusable := by simpa [narrow] using here
    -- The recursion goes on behind the one slot of the constant, or behind its two.
    cases wide : constant.isWide with
    | false =>
      obtain ⟨constants, rfl, others⟩ := exists_constants constant rest wide there
      exact ⟨constant :: constants, by simp [slots, wide], by simpa using ⟨usable, others⟩⟩
    | true =>
      cases rest with
      | nil => simp [laid_singleton, wide] at there
      | cons second rest =>
        obtain ⟨unused, behind⟩ := (laid_cons_cons constant second rest).mp there
        obtain rfl := unused.mpr wide
        obtain ⟨constants, rfl, others⟩ := exists_constants unusable rest rfl behind
        exact ⟨constant :: constants, by simp [slots, wide], by simpa using ⟨usable, others⟩⟩

private theorem laid_constants (entry : Constant) (constants : List Constant)
    (narrow : entry.isWide = false) (usable : ∀ constant ∈ constants, constant ≠ unusable) :
    Laid (entry :: constants.flatMap Constant.slots) := by
  induction constants generalizing entry with
  | nil => exact (laid_singleton entry).mpr narrow
  | cons constant constants ih =>
    have here := usable constant List.mem_cons_self
    have others := fun other member => usable other (List.mem_cons_of_mem constant member)
    rw [List.flatMap_cons, slots]
    -- The entry in front is generalised, since after a wide constant it is the unusable slot.
    cases wide : constant.isWide with
    | false =>
      exact (laid_cons_cons _ _ _).mpr ⟨by simp [here, narrow], ih constant wide others⟩
    | true =>
      exact (laid_cons_cons _ _ _).mpr ⟨by simp [here, narrow],
        (laid_cons_cons _ _ _).mpr ⟨by simp [wide], ih unusable rfl others⟩⟩

namespace ConstantPool

/-- The pool has no more slots than can be counted, and the unusable ones are where they belong. -/
structure Formed (pool : ConstantPool) : Prop where
  size : pool.entries.size ≤ 65535
  first : pool.entries[0]? = some .unusable
  behind : ∀ slot, pool.entries[slot + 1]? = some .unusable ↔
    ∃ entry, pool.entries[slot]? = some entry ∧ entry.isWide

theorem formed_iff (pool : ConstantPool) :
    pool.Formed ↔ ∃ constants, pool.entries.toList = layout constants ∧
      (layout constants).length ≤ 65535 ∧ ∀ constant ∈ constants, constant ≠ .unusable := by
  constructor
  · rintro ⟨size, first, behind⟩
    simp only [← Array.getElem?_toList, ← Array.length_toList] at size first behind
    generalize pool.entries.toList = all at size first behind ⊢
    cases all with
    | nil => simp at first
    | cons entry slots =>
      obtain rfl : entry = .unusable := by simpa using first
      obtain ⟨constants, rfl, usable⟩ := exists_constants .unusable slots rfl behind
      exact ⟨constants, rfl, size, usable⟩
  · rintro ⟨constants, slots, size, usable⟩
    constructor <;> simp only [← Array.getElem?_toList, ← Array.length_toList, slots]
    · exact size
    · rfl
    · exact laid_constants .unusable constants rfl usable

/-- What makes the slots of a pool those of a class file. -/
structure Sound (pool : ConstantPool) : Prop where
  size : pool.entries.size ≤ 65535
  first : pool.entries[0]? = some .unusable
  behind : ∀ slot, pool.entries[slot + 1]? = some .unusable ↔
    ∃ entry, pool.entries[slot]? = some entry ∧ entry.isWide
  kept : ∀ (slot : Nat) bytes, pool.entries[slot]? = some (.rawUtf8 bytes) →
    ModifiedUtf8.decodeLenient bytes = .ok none

theorem Sound.formed {pool : ConstantPool} (sound : pool.Sound) : pool.Formed :=
  ⟨sound.size, sound.first, sound.behind⟩

private theorem kept_layout_iff (constants : List Constant) :
    (∀ (slot : Nat) bytes, (layout constants)[slot]? = some (rawUtf8 bytes) →
      ModifiedUtf8.decodeLenient bytes = .ok none) ↔
      ∀ constant ∈ constants, constant.Kept := by
  -- The slots that the layout adds to the constants are all unusable.
  have member : ∀ bytes, rawUtf8 bytes ∈ layout constants ↔ rawUtf8 bytes ∈ constants := by
    intro bytes
    simp only [layout, List.mem_cons, reduceCtorEq, false_or, List.mem_flatMap, slots]
    constructor
    · rintro ⟨constant, member, here⟩
      split at here <;> simp at here <;> simpa [here] using member
    · intro member
      exact ⟨_, member, by simp [isWide]⟩
  simp only [Kept]
  constructor
  · rintro kept _ found bytes rfl
    obtain ⟨slot, found⟩ := List.mem_iff_getElem?.mp ((member bytes).mpr found)
    exact kept slot bytes found
  · intro kept slot bytes found
    exact kept _ ((member bytes).mp (List.mem_iff_getElem?.mpr ⟨slot, found⟩)) bytes rfl

theorem sound_iff (pool : ConstantPool) :
    pool.Sound ↔ ∃ constants, pool.entries.toList = layout constants ∧
      (layout constants).length ≤ 65535 ∧
      ∀ constant ∈ constants, constant ≠ .unusable ∧ constant.Kept := by
  constructor
  · intro sound
    obtain ⟨constants, slots, size, usable⟩ := (formed_iff pool).mp sound.formed
    have kept := sound.kept
    simp only [← Array.getElem?_toList, slots] at kept
    have each := (kept_layout_iff constants).mp kept
    exact ⟨constants, slots, size, fun constant found => ⟨usable constant found, each constant found⟩⟩
  · rintro ⟨constants, slots, size, sound⟩
    obtain ⟨size, first, behind⟩ :=
      (formed_iff pool).mpr ⟨constants, slots, size, fun constant found => (sound constant found).1⟩
    refine ⟨size, first, behind, ?_⟩
    simp only [← Array.getElem?_toList, slots]
    exact (kept_layout_iff constants).mpr fun constant found => (sound constant found).2

/-! ## Keeping pools sound -/

private theorem layout_append (constants : List Constant) (constant : Constant) :
    layout (constants ++ [constant]) = layout constants ++ constant.slots := by
  simp [layout]

theorem Formed.appended {pool : ConstantPool} {constant : Constant} (formed : pool.Formed)
    (usable : constant ≠ .unusable)
    (room : pool.entries.size + constant.slots.length ≤ maxSlots) :
    (pool.appended constant).Formed := by
  obtain ⟨constants, slots, size, others⟩ := (formed_iff pool).mp formed
  refine (formed_iff _).mpr ⟨constants ++ [constant], ?_, ?_, ?_⟩
  · rw [ConstantPool.appended, Array.toList_appendList, slots, layout_append]
  · rw [layout_append, List.length_append, ← slots, Array.length_toList]
    exact room
  · intro other member
    rcases List.mem_append.mp member with member | member
    · exact others other member
    · rw [List.mem_singleton.mp member]
      exact usable

instance : Growth (Preserved Sound) where
  push {constant} plain := moves_push_of fun pool room sound => by
    obtain ⟨constants, slots, size, usable⟩ := (sound_iff pool).mp sound
    refine (sound_iff _).mpr ⟨constants ++ [constant], ?_, ?_, ?_⟩
    · rw [appended, Array.toList_appendList, slots, layout_append]
    · rw [layout_append, List.length_append, ← slots, Array.length_toList]
      exact room
    · intro other member
      rcases List.mem_append.mp member with member | member
      · exact usable other member
      · obtain rfl := List.mem_singleton.mp member
        exact ⟨plain.1, fun bytes same => absurd same (plain.2 bytes)⟩

theorem Formed.indexed {pool : ConstantPool} (formed : pool.Formed) : pool.Indexed :=
  Nat.le_succ_of_le formed.size

theorem Sound.indexed {pool : ConstantPool} (sound : pool.Sound) : pool.Indexed :=
  sound.formed.indexed

theorem sound_empty : empty.Sound :=
  (sound_iff _).mpr ⟨[], rfl, by decide, by simp⟩

theorem sound_of_spelled {pool : ConstantPool} {bytes : Bytes} (spelled : pool.Spelled bytes) :
    pool.Sound ∧ pool.Faithful := by
  obtain ⟨count, constants, parts, rfl, size, spelled, -⟩ := spelled
  have bound := count.toNat_lt
  refine ⟨(sound_iff _).mpr ⟨constants, rfl, by omega, ?_⟩, rfl⟩
  clear size
  induction spelled with
  | nil => simp
  | cons first _ ih =>
    exact List.forall_mem_cons.mpr ⟨⟨usable_of_spelled first, kept_of_spelled first⟩, ih⟩

end ConstantPool

end JarRemap
