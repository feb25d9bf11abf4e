import JarRemap.Proofs.ConstantPool.Rename

/-!
# Where the texts of a pool are

A text is appended only if the pool does not hold it yet, and a slot that holds a text is never
pointed elsewhere. So a text that is there stays in just those slots that it was in.
-/

namespace JarRemap.ConstantPool

/-- A text of the old pool is in the slots that it was in and in no other. -/
structure SameTexts (old new : ConstantPool) : Prop where
  utf8_iff : ∀ {text : String} {place : Index}, old.utf8 place = .ok text →
    ∀ index, new.utf8 index = .ok text ↔ old.utf8 index = .ok text

instance : IsPreorder ConstantPool SameTexts where
  refl _ := ⟨fun _ _ => Iff.rfl⟩
  trans _ _ _ first second := ⟨fun {_ place} there index =>
    (second.utf8_iff ((first.utf8_iff there place).mpr there) index).trans (first.utf8_iff there index)⟩

section

variable {old new : ConstantPool} {index : Index} {text : String}

theorem SameTexts.utf8 (same : SameTexts old new) (found : old.utf8 index = .ok text) :
    new.utf8 index = .ok text :=
  (same.utf8_iff found index).mpr found

theorem hasText_iff (pool : ConstantPool) : pool.hasText index text = true ↔ pool.utf8 index = .ok text := by
  rw [hasText]
  split
  next found read => simp [read]
  next fault read => simp [read]

theorem SameTexts.hasText (same : SameTexts old new) {place : Index} (there : old.utf8 place = .ok text)
    (index : Index) : new.hasText index text = old.hasText index text := by
  rw [Bool.eq_iff_iff, hasText_iff, hasText_iff]
  exact same.utf8_iff there index

private theorem utf8_of_entry_iff {pool : ConstantPool} :
    pool.utf8 index = .ok text ↔ pool.entries[index.toNat]? = some (.utf8 text) := by
  rw [utf8_ok_iff, lookup_ok_iff]
  simp

private theorem sameTexts_of_entries
    (entries : ∀ (place index : Index) text, old.entries[place.toNat]? = some (.utf8 text) →
      (new.entries[index.toNat]? = some (.utf8 text) ↔ old.entries[index.toNat]? = some (.utf8 text))) :
    SameTexts old new := by
  constructor
  intro text place there index
  rw [utf8_of_entry_iff] at there
  rw [utf8_of_entry_iff, utf8_of_entry_iff]
  exact entries place index text there

/-! ## Appending -/

/-- What is appended is no text that is there already. -/
private theorem sameTexts_appended {pool : ConstantPool} {constant : Constant}
    (absent : ∀ text, constant = .utf8 text → ∀ slot : Nat, pool.entries[slot]? ≠ some (.utf8 text)) :
    SameTexts pool (pool.appended constant) := by
  refine sameTexts_of_entries fun place index text there => ?_
  rw [← Array.getElem?_toList, appended, Array.toList_appendList, List.getElem?_append]
  split
  · rw [Array.getElem?_toList]
  next beyond =>
    -- The new slots hold the constant and, if it is wide, nothing behind it.
    have old : pool.entries[index.toNat]? = none := Array.getElem?_eq_none (by simpa using beyond)
    rw [old]
    simp only [reduceCtorEq, iff_false]
    intro here
    have member := List.mem_of_getElem? here
    rw [Constant.slots] at member
    split at member
    · rcases List.mem_cons.mp member with same | member
      · exact absent text same.symm _ there
      · simp at member
    · exact absent text (List.mem_singleton.mp member).symm _ there

private theorem moves_push_sameTexts {constant : Constant} (other : ∀ text, constant ≠ .utf8 text) :
    Moves SameTexts (push constant) :=
  moves_push_of fun _ _ => sameTexts_appended fun text same => absurd same (other text)

private theorem moves_utf8Index_sameTexts (text : String) : Moves SameTexts (utf8Index text) := by
  intro pool
  rw [utf8Index, intern, ran_bind, ran_get]
  cases found : pool.slotOf? (.utf8 text) with
  | some slot =>
    dsimp only
    rw [found]
    exact refl pool
  | none =>
    -- The text is pushed, since no slot holds it.
    have absent : ∀ slot : Nat, pool.entries[slot]? ≠ some (.utf8 text) := by
      intro slot here
      rw [slotOf?, Option.map_eq_none_iff, Array.findIdx?_eq_none_iff] at found
      have different := found _ (Array.mem_of_getElem? here)
      simp at different
    dsimp only
    rw [found]
    by_cases room : pool.entries.size + (Constant.utf8 text).slots.length ≤ maxSlots
    · rw [(gives_push_iff _ pool _ _).mpr ⟨room, rfl, rfl⟩]
      refine sameTexts_appended fun other same => ?_
      obtain rfl := Constant.utf8.inj same
      exact absent
    · rw [ran_push_full room]
      exact refl pool

instance : Asking SameTexts where
  text := moves_utf8Index_sameTexts
  push _ other := moves_push_sameTexts other

/-- The text is in no slot that it was not in before. -/
def NotAdded (text : String) (old new : ConstantPool) : Prop :=
  ∀ index, new.utf8 index = .ok text → old.utf8 index = .ok text

instance (text : String) : IsPreorder ConstantPool (NotAdded text) where
  refl _ _ := id
  trans _ _ _ first second index := first index ∘ second index

/-- Asking for a text adds no other one. -/
theorem moves_utf8Index_notAdded {other : String} (different : text ≠ other) :
    Moves (NotAdded other) (utf8Index text) := by
  refine moves_intern_of (moves_push_of fun pool _ index found => ?_)
  rw [utf8_of_entry_iff] at found ⊢
  rw [← Array.getElem?_toList, appended, Array.toList_appendList, List.getElem?_append] at found
  split at found
  · rwa [Array.getElem?_toList] at found
  · have same := List.mem_singleton.mp (List.mem_of_getElem? found)
    exact absurd (Constant.utf8.inj same).symm different

/-! ## Renaming -/

/-- What a rename replaces is no text, and neither is what it puts there. -/
private theorem sameTexts_withEntry {pool : ConstantPool} {before after : Constant}
    (here : pool.entries[index.toNat]? = some before) (repointable : before.isRepointable)
    (repointed : after.isRepointable) : SameTexts pool (pool.withEntry index after) := by
  refine sameTexts_of_entries fun place other text there => ?_
  by_cases same : other.toNat = index.toNat
  · rw [same, withEntry_entry after here, here]
    constructor
    · intro is
      obtain rfl := Option.some.inj is
      cases repointed
    · intro is
      obtain rfl := Option.some.inj is
      cases repointable
  · rw [withEntry_other same]

theorem moves_edit_sameTexts (rename : PoolRename) (index : Index) :
    Moves SameTexts (rename.edit index) := by
  obtain ⟨asked, expected, shape, asks, -⟩ := PoolRename.edit_shape rename index
  rw [shape]
  refine (asks SameTexts).bind fun place pool => ?_
  rcases ran_repoint pool with fails | ⟨before, after, here, changed, runs⟩
  · rw [fails]
    exact refl pool
  · rw [runs]
    obtain ⟨repointable, repointed⟩ := PoolRename.repointable_of_change changed
    exact sameTexts_withEntry here repointable repointed

end

end JarRemap.ConstantPool
