import JarRemap.ConstantPool.Edit
import JarRemap.Proofs.Edit
import JarRemap.Proofs.Outcome

/-!
# What edits of a pool keep

Interning and appending keep every slot as it is, whether or not they succeed. What they return
leads to what was asked for, and still does after every later edit of the kind.
-/

namespace JarRemap

/-- The constant can be appended to every pool: it is no mere slot and no bytes without a text. -/
def Constant.Plain (constant : Constant) : Prop :=
  constant ≠ .unusable ∧ ∀ bytes, constant ≠ .rawUtf8 bytes

namespace ConstantPool

/-! ## Reading -/

theorem lookup_ok_iff (pool : ConstantPool) (index : Index) (entry : Constant) :
    pool.lookup index = .ok entry ↔
      pool.entries[index.toNat]? = some entry ∧ entry ≠ .unusable := by
  rw [lookup]
  split
  next missing => simp [missing]
  -- A slot may be there without being usable, as the one behind a wide constant is.
  next unused =>
    rw [unused]
    constructor
    · intro impossible
      cases impossible
    · rintro ⟨same, usable⟩
      exact absurd (Option.some.inj same).symm usable
  next found usable here =>
    rw [here, Except.ok.injEq, Option.some.injEq]
    constructor
    · rintro rfl
      exact ⟨rfl, usable⟩
    · exact And.left

theorem utf8_ok_iff (pool : ConstantPool) (index : Index) (text : String) :
    pool.utf8 index = .ok text ↔ pool.lookup index = .ok (.utf8 text) := by
  rw [utf8, bind_ok_iff]
  constructor
  · rintro ⟨entry, found, same⟩
    split at same
    · obtain rfl := (pure_ok_iff _ _).mp same
      exact found
    · cases same
  · intro found
    exact ⟨_, found, rfl⟩

theorem className_ok_iff (pool : ConstantPool) (index : Index) (name : String) :
    pool.className index = .ok name ↔
      ∃ text, pool.lookup index = .ok (.classRef text) ∧ pool.utf8 text = .ok name := by
  rw [className, bind_ok_iff]
  constructor
  · rintro ⟨entry, found, same⟩
    split at same
    · exact ⟨_, found, same⟩
    · cases same
  · rintro ⟨text, found, same⟩
    exact ⟨_, found, same⟩

theorem nameAndType_ok_iff (pool : ConstantPool) (index : Index) (symbol : String × String) :
    pool.nameAndType index = .ok symbol ↔
      ∃ first second, pool.lookup index = .ok (.nameAndType first second) ∧
        pool.utf8 first = .ok symbol.1 ∧ pool.utf8 second = .ok symbol.2 := by
  rw [nameAndType, bind_ok_iff]
  constructor
  · rintro ⟨entry, found, same⟩
    split at same
    · simp only [bind_ok_iff, pure_ok_iff] at same
      obtain ⟨name, here, descriptor, there, rfl⟩ := same
      exact ⟨_, _, found, here, there⟩
    · cases same
  · rintro ⟨first, second, found, here, there⟩
    refine ⟨_, found, ?_⟩
    simp only [bind_ok_iff, pure_ok_iff]
    exact ⟨_, here, _, there, rfl⟩

/-- Every slot has an index. -/
def Indexed (pool : ConstantPool) : Prop := pool.entries.size ≤ maxSlots + 1

/-! ## Keeping every slot -/

/-- Every slot keeps its constant, and slots are only added as long as there is room. -/
structure Extends (old new : ConstantPool) : Prop where
  entry : ∀ (slot : Nat) entry, old.entries[slot]? = some entry → new.entries[slot]? = some entry
  size : new.entries.size ≤ max old.entries.size maxSlots

instance : IsPreorder ConstantPool Extends where
  refl pool := ⟨fun _ _ => id, Nat.le_max_left _ _⟩
  trans _ _ _ first second := by
    have sizes := And.intro first.size second.size
    exact ⟨fun slot entry => second.entry slot entry ∘ first.entry slot entry, by omega⟩

section

variable {old new : ConstantPool}

theorem Extends.indexed (grown : Extends old new) (indexed : old.Indexed) : new.Indexed := by
  have size := grown.size
  unfold Indexed maxSlots at *
  omega

theorem Extends.lookup (grown : Extends old new) {index : Index} {entry : Constant}
    (found : old.lookup index = .ok entry) : new.lookup index = .ok entry := by
  rw [lookup_ok_iff] at found ⊢
  exact ⟨grown.entry _ _ found.1, found.2⟩

theorem Extends.utf8 (grown : Extends old new) {index : Index} {text : String}
    (found : old.utf8 index = .ok text) : new.utf8 index = .ok text := by
  rw [utf8_ok_iff] at found ⊢
  exact grown.lookup found

theorem Extends.className (grown : Extends old new) {index : Index} {name : String}
    (found : old.className index = .ok name) : new.className index = .ok name := by
  rw [className_ok_iff] at found ⊢
  obtain ⟨text, entry, here⟩ := found
  exact ⟨text, grown.lookup entry, grown.utf8 here⟩

theorem Extends.nameAndType (grown : Extends old new) {index : Index} {symbol : String × String}
    (found : old.nameAndType index = .ok symbol) : new.nameAndType index = .ok symbol := by
  rw [nameAndType_ok_iff] at found ⊢
  obtain ⟨first, second, entry, here, there⟩ := found
  exact ⟨first, second, grown.lookup entry, grown.utf8 here, grown.utf8 there⟩

end

/-! ## Appending and interning -/

theorem size_append (entries : Array Constant) (more : List Constant) :
    (entries ++ more).size = entries.size + more.length := by
  rw [← Array.length_toList, Array.toList_appendList, List.length_append, Array.length_toList]

theorem slots_cons (constant : Constant) : ∃ behind, constant.slots = constant :: behind := by
  rw [Constant.slots]
  split
  · exact ⟨_, rfl⟩
  · exact ⟨_, rfl⟩

theorem gives_push_iff (constant : Constant) (before : ConstantPool) (index : Index)
    (after : ConstantPool) :
    Gives (push constant) before index after ↔
      before.entries.size + constant.slots.length ≤ maxSlots ∧
        index = UInt16.ofNat before.entries.size ∧ after = before.appended constant := by
  rw [Gives, push, ran_mk]
  split
  next full => simp [Nat.not_le.mpr full]
  next room => simp [Nat.not_lt.mp room, eq_comm]

theorem extends_appended {pool : ConstantPool} {constant : Constant}
    (room : pool.entries.size + constant.slots.length ≤ maxSlots) :
    Extends pool (pool.appended constant) := by
  constructor
  · intro slot entry found
    rw [← Array.getElem?_toList] at found ⊢
    rw [appended, Array.toList_appendList]
    exact (List.getElem?_append_left (List.getElem?_eq_some_iff.mp found).1).trans found
  · rw [appended, size_append]
    omega

theorem ran_push_full {pool : ConstantPool} {constant : Constant}
    (full : ¬ pool.entries.size + constant.slots.length ≤ maxSlots) :
    ran (push constant) pool = (.error .poolFull, pool) :=
  if_pos (Nat.not_le.mp full)

/-- A full pool is left as it is, so only the others count. -/
theorem moves_push_of {related : ConstantPool → ConstantPool → Prop} [IsPreorder ConstantPool related]
    {constant : Constant} (appends : ∀ pool : ConstantPool,
      pool.entries.size + constant.slots.length ≤ maxSlots → related pool (pool.appended constant)) :
    Moves related (push constant) := by
  intro pool
  by_cases room : pool.entries.size + constant.slots.length ≤ maxSlots
  · rw [(gives_push_iff constant pool _ _).mpr ⟨room, rfl, rfl⟩]
    exact appends pool room
  · rw [ran_push_full room]
    exact refl pool

/-- A relation of pools that appending goes along with, whether or not there is room. -/
class Growth (related : ConstantPool → ConstantPool → Prop) : Prop
    extends IsPreorder ConstantPool related where
  push : ∀ {constant : Constant}, constant.Plain → Moves related (ConstantPool.push constant)

theorem moves_intern_of {related : ConstantPool → ConstantPool → Prop}
    [IsPreorder ConstantPool related] {constant : Constant}
    (pushes : Moves related (push constant)) : Moves related (intern constant) := by
  refine moves_get.bind fun pool => ?_
  split
  · exact moves_pure _
  · exact pushes

/-- A relation of pools that asking for things goes along with: a text is appended only if it is not
there yet. -/
class Asking (related : ConstantPool → ConstantPool → Prop) : Prop
    extends IsPreorder ConstantPool related where
  text : ∀ text, Moves related (utf8Index text)
  push : ∀ {constant : Constant}, constant.Plain → (∀ text, constant ≠ .utf8 text) →
    Moves related (ConstantPool.push constant)

instance (related : ConstantPool → ConstantPool → Prop) [Growth related] : Asking related where
  text _ := moves_intern_of (Growth.push (by simp [Constant.Plain]))
  push plain _ := Growth.push plain

section

variable {related : ConstantPool → ConstantPool → Prop} [Asking related]

theorem moves_utf8Index (text : String) : Moves related (utf8Index text) := Asking.text text

theorem moves_classIndex (name : String) : Moves related (classIndex name) := by
  refine (moves_utf8Index name).bind fun text => moves_get.bind fun pool => ?_
  split
  · exact moves_pure _
  · exact Asking.push (by simp [Constant.Plain]) (by simp)

theorem moves_nameAndTypeIndex (name descriptor : String) :
    Moves related (nameAndTypeIndex name descriptor) :=
  (moves_utf8Index name).bind fun _ => (moves_utf8Index descriptor).bind fun _ =>
    moves_intern_of (Asking.push (by simp [Constant.Plain]) (by simp))

end

/-- The edit does nothing but append. -/
def Appends {α : Type} (edit : PoolEdit α) : Prop :=
  ∀ (related : ConstantPool → ConstantPool → Prop) [Growth related], Moves related edit

/-- The edit does nothing but ask for things. -/
def Asks {α : Type} (edit : PoolEdit α) : Prop :=
  ∀ (related : ConstantPool → ConstantPool → Prop) [Asking related], Moves related edit

theorem Asks.appends {α : Type} {edit : PoolEdit α} (asks : Asks edit) : Appends edit :=
  fun related _ => asks related

instance : Growth Extends where
  push _ := moves_push_of fun _ room => extends_appended room

/-! ## What is returned -/

theorem pushed_entry {constant : Constant} {before after : ConstantPool} {index : Index}
    (gives : Gives (push constant) before index after) :
    after.entries[index.toNat]? = some constant := by
  obtain ⟨room, rfl, rfl⟩ := (gives_push_iff _ _ _ _).mp gives
  obtain ⟨behind, slots⟩ := slots_cons constant
  -- There was room, so the number of the next slot is not too large for an index.
  have here : (UInt16.ofNat before.entries.size).toNat = before.entries.toList.length := by
    rw [slots, maxSlots, List.length_cons] at room
    rw [UInt16.toNat_ofNat', Nat.mod_eq_of_lt (by omega), Array.length_toList]
  rw [← Array.getElem?_toList, appended, Array.toList_appendList, slots, here,
    List.getElem?_append_right (Nat.le_refl _), Nat.sub_self]
  rfl

private theorem found_entry {pool : ConstantPool} {constant : Constant} {index : Index}
    (indexed : pool.Indexed) (found : pool.slotOf? constant = some index) :
    pool.entries[index.toNat]? = some constant := by
  rw [slotOf?, Option.map_eq_some_iff] at found
  obtain ⟨slot, found, rfl⟩ := found
  rw [Array.findIdx?_eq_some_iff_getElem] at found
  obtain ⟨within, same, -⟩ := found
  rw [Indexed, maxSlots] at indexed
  rw [UInt16.toNat_ofNat', Nat.mod_eq_of_lt (by omega), Array.getElem?_eq_getElem within]
  exact congrArg some (beq_iff_eq.mp same)

/-- The index that is returned leads to the constant. -/
theorem interned_entry {constant : Constant} {before after : ConstantPool} {index : Index}
    (indexed : before.Indexed) (gives : Gives (intern constant) before index after) :
    after.entries[index.toNat]? = some constant := by
  rw [intern, gives_bind_iff] at gives
  obtain ⟨pool, middle, got, gives⟩ := gives
  obtain ⟨rfl, rfl⟩ := (gives_get_iff _ _ _).mp got
  split at gives
  next slot found =>
    obtain ⟨rfl, rfl⟩ := (gives_pure_iff _ _ _ _).mp gives
    exact found_entry indexed found
  · exact pushed_entry gives

/-- No slot before the one that is returned holds the constant. -/
theorem interned_least {constant : Constant} {before after : ConstantPool} {index : Index}
    (indexed : before.Indexed) (gives : Gives (intern constant) before index after) {slot : Nat}
    (earlier : slot < index.toNat) : after.entries[slot]? ≠ some constant := by
  rw [intern, gives_bind_iff] at gives
  obtain ⟨pool, middle, got, gives⟩ := gives
  obtain ⟨rfl, rfl⟩ := (gives_get_iff _ _ _).mp got
  rw [Indexed, maxSlots] at indexed
  intro here
  split at gives
  next found searched =>
    obtain ⟨rfl, rfl⟩ := (gives_pure_iff _ _ _ _).mp gives
    rw [slotOf?, Option.map_eq_some_iff] at searched
    obtain ⟨first, searched, rfl⟩ := searched
    obtain ⟨within, -, others⟩ := Array.findIdx?_eq_some_iff_getElem.mp searched
    rw [UInt16.toNat_ofNat', Nat.mod_eq_of_lt (by omega)] at earlier
    obtain ⟨_, same⟩ := Array.getElem?_eq_some_iff.mp here
    exact others slot earlier (beq_iff_eq.mpr same)
  next searched =>
    -- The constant was in no slot that is older than the one it was appended in.
    obtain ⟨room, rfl, rfl⟩ := (gives_push_iff _ _ _ _).mp gives
    rw [slotOf?, Option.map_eq_none_iff, Array.findIdx?_eq_none_iff] at searched
    rw [UInt16.toNat_ofNat'] at earlier
    have older : slot < middle.entries.size := Nat.lt_of_lt_of_le earlier (Nat.mod_le _ _)
    have still := (extends_appended room).entry slot _ (Array.getElem?_eq_getElem older)
    have same := Option.some.inj (still.symm.trans here)
    exact absurd (beq_iff_eq.mpr same) (Bool.eq_false_iff.mp (searched _ (Array.getElem_mem older)))

private theorem interned_lookup {constant : Constant} {before after : ConstantPool} {index : Index}
    (usable : constant ≠ .unusable) (indexed : before.Indexed)
    (gives : Gives (intern constant) before index after) : after.lookup index = .ok constant :=
  (lookup_ok_iff _ _ _).mpr ⟨interned_entry indexed gives, usable⟩

theorem utf8Index_reads {text : String} {before after : ConstantPool} {index : Index}
    (indexed : before.Indexed) (gives : Gives (utf8Index text) before index after) :
    after.utf8 index = .ok text :=
  (utf8_ok_iff _ _ _).mpr (interned_lookup (by simp) indexed gives)

theorem nameAndTypeIndex_reads {name descriptor : String} {before after : ConstantPool}
    {index : Index} (indexed : before.Indexed)
    (gives : Gives (nameAndTypeIndex name descriptor) before index after) :
    after.nameAndType index = .ok (name, descriptor) := by
  simp only [nameAndTypeIndex, gives_bind_iff] at gives
  obtain ⟨first, named, names, second, described, describes, interned⟩ := gives
  -- What was interned first is still there when the last has been.
  have once : Extends before named := names.moved (moves_utf8Index name)
  have twice : Extends named described := describes.moved (moves_utf8Index descriptor)
  have thrice : Extends described after :=
    interned.moved (moves_intern_of (Growth.push (by simp [Constant.Plain])))
  have room := once.indexed indexed
  rw [nameAndType_ok_iff]
  refine ⟨first, second, interned_lookup (by simp) (twice.indexed room) interned, ?_, ?_⟩
  · exact thrice.utf8 (twice.utf8 (utf8Index_reads indexed names))
  · exact thrice.utf8 (utf8Index_reads room describes)

/-! ## Classes

A class is found by what the pool remembers of it. In a pool that was read, or that only grew since,
this is what the slots themselves say. -/

/-- The pool remembers each of its class entries with the name index that it has. -/
def Faithful (pool : ConstantPool) : Prop := pool.classes = (classesOf pool.entries.toList).toArray

private theorem classesOf_append (front back : List Constant) :
    classesOf (front ++ back) = classesOf front ++ (back.zipIdx front.length).filterMap
      fun (entry, slot) =>
        match entry with
        | .classRef name => some (name, UInt16.ofNat slot)
        | _ => none := by
  rw [classesOf, List.zipIdx_append, List.filterMap_append, Nat.zero_add]
  rfl

theorem Faithful.appended {pool : ConstantPool} (faithful : pool.Faithful) (constant : Constant) :
    (pool.appended constant).Faithful := by
  rw [Faithful, ConstantPool.appended, Array.toList_appendList, classesOf_append, faithful]
  cases constant <;> simp [classesWith, Constant.slots, Constant.isWide]

instance : Growth (Preserved Faithful) where
  push {constant} _ := moves_push_of fun _ _ faithful => faithful.appended constant

private theorem entry_of_mem_classesOf {entries : List Constant} {name slot : Index}
    (member : (name, slot) ∈ classesOf entries) :
    ∃ place, entries[place]? = some (.classRef name) ∧ UInt16.ofNat place = slot := by
  rw [classesOf, List.mem_filterMap] at member
  obtain ⟨⟨entry, place⟩, found, said⟩ := member
  have here := List.mem_zipIdx_iff_getElem?.mp found
  cases entry <;> simp only [reduceCtorEq, Option.some.injEq, Prod.mk.injEq] at said
  obtain ⟨rfl, rfl⟩ := said
  exact ⟨place, here, rfl⟩

theorem mem_of_classSlot? {pool : ConstantPool} {name slot : Index}
    (found : pool.classSlot? name = some slot) : (name, slot) ∈ pool.classes := by
  rw [classSlot?, Option.map_eq_some_iff] at found
  obtain ⟨⟨first, _⟩, found, rfl⟩ := found
  have same := Array.find?_some found
  simp only [beq_iff_eq] at same
  rw [← same]
  exact Array.mem_of_find?_eq_some found

/-- A class that is remembered with a name index is there. -/
theorem remembered_entry {pool : ConstantPool} {name slot : Index} (indexed : pool.Indexed)
    (faithful : pool.Faithful) (member : (name, slot) ∈ pool.classes) :
    pool.entries[slot.toNat]? = some (.classRef name) := by
  rw [faithful, List.mem_toArray] at member
  obtain ⟨place, here, rfl⟩ := entry_of_mem_classesOf member
  rw [Array.getElem?_toList] at here
  obtain ⟨within, -⟩ := Array.getElem?_eq_some_iff.mp here
  rw [Indexed, maxSlots] at indexed
  rw [UInt16.toNat_ofNat', Nat.mod_eq_of_lt (by omega)]
  exact here

theorem classIndex_reads {name : String} {before after : ConstantPool} {index : Index}
    (indexed : before.Indexed) (faithful : before.Faithful)
    (gives : Gives (classIndex name) before index after) : after.className index = .ok name := by
  simp only [classIndex, gives_bind_iff] at gives
  obtain ⟨text, _, named, _, pool, got, gives⟩ := gives
  obtain ⟨rfl, rfl⟩ := (gives_get_iff _ _ _).mp got
  have reads := utf8Index_reads indexed named
  have texts : Extends before pool := named.moved (moves_utf8Index name)
  have known : Preserved Faithful before pool := named.moved (moves_utf8Index name)
  rw [className_ok_iff]
  -- Either the pool remembered the class, or it was appended just now.
  split at gives
  next slot found =>
    obtain ⟨rfl, rfl⟩ := (gives_pure_iff _ _ _ _).mp gives
    have entry :=
      remembered_entry (texts.indexed indexed) (known faithful) (mem_of_classSlot? found)
    exact ⟨text, (lookup_ok_iff _ _ _).mpr ⟨entry, by simp⟩, reads⟩
  · have grown : Extends pool after := gives.moved (Growth.push (by simp [Constant.Plain]))
    exact ⟨text, (lookup_ok_iff _ _ _).mpr ⟨pushed_entry gives, by simp⟩, grown.utf8 reads⟩

end ConstantPool

end JarRemap
