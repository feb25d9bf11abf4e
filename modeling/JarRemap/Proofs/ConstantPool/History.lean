import JarRemap.Proofs.ClassFile.Built
import JarRemap.Proofs.ClassFile.Normal
import JarRemap.Proofs.ConstantPool.Calls
import Mathlib.Order.Bounds.Defs

/-!
# Runs of calls on a pool

A pool that was made or read stays within its bounds and keeps its layout through any run of calls,
and each slot goes on holding what was put into it until a rename names it.
-/

namespace JarRemap.ConstantPool

/-- A pool as it is made or read. -/
inductive Fresh : ConstantPool → Prop
  | empty : Fresh .empty
  | decoded {bytes : Bytes} {file : ClassFile} (read : ClassFile.decode bytes = .ok file) :
      Fresh file.pool

theorem Fresh.sound {pool : ConstantPool} (fresh : pool.Fresh) : pool.Sound ∧ pool.Faithful := by
  cases fresh with
  | empty => exact ⟨sound_empty, rfl⟩
  | decoded read =>
    obtain ⟨sound, faithful, -⟩ := ClassFile.whole_decoded read
    exact ⟨sound, faithful⟩

/-- The pool that the calls leave, any of which may have failed. -/
def afterAll (calls : List PoolCall) (pool : ConstantPool) : ConstantPool :=
  calls.foldl (fun pool call => call.after pool) pool

/-- What every effect preserves is preserved by a run. -/
theorem afterAll_preserves (holds : ConstantPool → Prop)
    (step : ∀ call before outcome after, PoolCall.Effect before call outcome after →
      holds before → holds after)
    {calls : List PoolCall} (allowed : ∀ call ∈ calls, call.Allowed) {pool : ConstantPool}
    (start : holds pool) : holds (afterAll calls pool) := by
  induction calls generalizing pool with
  | nil => exact start
  | cons call calls ih =>
    rw [List.forall_mem_cons] at allowed
    exact ih allowed.2 (step _ _ _ _ (PoolCall.effect allowed.1 pool) start)

theorem Formed.afterAll {calls : List PoolCall} {pool : ConstantPool} (formed : pool.Formed)
    (allowed : ∀ call ∈ calls, call.Allowed) : (afterAll calls pool).Formed :=
  afterAll_preserves Formed (fun _ _ _ _ effect => effect.formed) allowed formed

/-- A constant that cannot be pointed elsewhere stays in its slot. -/
theorem afterAll_lasting {calls : List PoolCall} (allowed : ∀ call ∈ calls, call.Allowed)
    {pool : ConstantPool} {slot : Nat} {constant : Constant} (lasting : ¬ constant.isRepointable)
    (here : pool.entries[slot]? = some constant) :
    (afterAll calls pool).entries[slot]? = some constant := by
  refine afterAll_preserves (fun pool => pool.entries[slot]? = some constant)
    (fun call before outcome after effect here => ?_) allowed here
  rcases effect.entry here with still | ⟨_, _, _, _, -, -, -, changed, -⟩
  · exact still
  · exact absurd (PoolRename.repointable_of_change changed).1 lasting

/-- What can be relied on in a pool and in every call on it. -/
structure AppendOnly (pool : ConstantPool) : Prop where
  counted : pool.entries.size ≤ maxSlots ∧ pool.count.toNat = pool.entries.size
  /-- Pushing fails if there is no room for the constant, and for no other reason. -/
  full : ∀ constant fault, (ran (push constant) pool).1 = .error fault ↔
    fault = .poolFull ∧ maxSlots < pool.entries.size + constant.slots.length
  /-- So nothing that is asked for is refused while there is room. -/
  room : ∀ call : PoolCall, (∀ index rename, call ≠ .rename index rename) →
    pool.entries.size + 3 ≤ maxSlots → call.outcome pool = .ok ()
  /-- A slot is changed only by the rename of it, which replaces one index. -/
  entry : ∀ call : PoolCall, call.Allowed → ∀ (slot : Nat) old, pool.entries[slot]? = some old →
    (call.after pool).entries[slot]? = some old ∨
      ∃ index rename place new, call = .rename index rename ∧ call.outcome pool = .ok () ∧
        slot = index.toNat ∧ rename.change place old = some new ∧
        (call.after pool).entries[slot]? = some new
  /-- And what it leads to then is what was asked for. -/
  renamed : ∀ (index : Index) rename old, pool.entries[index.toNat]? = some old →
    (PoolCall.rename index rename).outcome pool = .ok () →
    ∃ new, ((PoolCall.rename index rename).after pool).entries[index.toNat]? = some new ∧
      rename.Done ((PoolCall.rename index rename).after pool) old new
  fails : ∀ call : PoolCall, call.Allowed → call.outcome pool ≠ .ok () →
    Grows pool (call.after pool)
  lasting : ∀ calls : List PoolCall, (∀ call ∈ calls, call.Allowed) → ∀ (slot : Nat) constant,
    ¬ constant.isRepointable → pool.entries[slot]? = some constant →
      (afterAll calls pool).entries[slot]? = some constant
  unusable : ∀ slot : Nat, pool.entries[slot]? = some .unusable ↔
    slot = 0 ∨ ∃ before entry, slot = before + 1 ∧ pool.entries[before]? = some entry ∧ entry.isWide
  text : ∀ text index after, Gives (utf8Index text) pool index after →
    IsLeast {slot : Nat | after.entries[slot]? = some (.utf8 text)} index.toNat
  symbol : ∀ name descriptor index after, Gives (nameAndTypeIndex name descriptor) pool index after →
    after.nameAndType index = .ok (name, descriptor)

private theorem Formed.unusable_iff {pool : ConstantPool} (formed : pool.Formed) (slot : Nat) :
    pool.entries[slot]? = some .unusable ↔ slot = 0 ∨
      ∃ before entry, slot = before + 1 ∧ pool.entries[before]? = some entry ∧ entry.isWide := by
  cases slot with
  | zero => simp [formed.first]
  | succ slot =>
    rw [formed.behind]
    simp

private theorem push_fails_iff (pool : ConstantPool) (constant : Constant) (fault : Fault) :
    (ran (push constant) pool).1 = .error fault ↔
      fault = .poolFull ∧ maxSlots < pool.entries.size + constant.slots.length := by
  by_cases room : pool.entries.size + constant.slots.length ≤ maxSlots
  · rw [(gives_push_iff constant pool _ _).mpr ⟨room, rfl, rfl⟩]
    simp [room]
  · rw [ran_push_full room]
    simp [Nat.lt_of_not_le room, eq_comm]

theorem Formed.appendOnly {pool : ConstantPool} (formed : pool.Formed) : pool.AppendOnly where
  counted := by
    have size := formed.size
    refine ⟨size, ?_⟩
    rw [count, UInt16.toNat_ofNat', Nat.mod_eq_of_lt (by omega)]
  full := push_fails_iff pool
  room call other := PoolCall.succeeds other
  entry call allowed slot old here := (call.effect allowed pool).entry here
  renamed index rename old here succeeded :=
    PoolRename.edit_done formed.indexed here (Prod.ext succeeded rfl)
  fails call allowed failed := (call.effect allowed pool).grows failed
  lasting calls allowed slot constant fixed here := afterAll_lasting allowed fixed here
  unusable := formed.unusable_iff
  text text index after gives := by
    refine ⟨interned_entry formed.indexed gives, fun slot here => ?_⟩
    exact Nat.le_of_not_lt fun earlier => interned_least formed.indexed gives earlier here
  symbol name descriptor index after gives := nameAndTypeIndex_reads formed.indexed gives

/-- Whatever calls were made on a pool that was made or read, with or without success, its slots can
be counted and are laid out as they should be, and no further call moves or changes any but the one
it renames. -/
theorem appendOnly_afterAll {start : ConstantPool} (fresh : start.Fresh) {calls : List PoolCall}
    (allowed : ∀ call ∈ calls, call.Allowed) : (afterAll calls start).AppendOnly :=
  (fresh.sound.1.formed.afterAll allowed).appendOnly

/-- The second rename names a slot that there is not, so only its descriptor is left of it. -/
def someCalls : List PoolCall :=
  [.push (.long 7), .classIndex "B", .rename 2 (.class_ "C"), .rename 40 (.methodType "()V"),
    .push (.rawUtf8 [0xFF]), .nameAndTypeIndex "x" "I"]

theorem appendOnly_afterAll_someCalls :
    ClassFile.mixedFile.pool.Fresh ∧ (∀ call ∈ someCalls, call.Allowed) ∧
      (afterAll someCalls ClassFile.mixedFile.pool).entries.toList =
        [.unusable, .utf8 "A", .classRef 8, .rawUtf8 [0xED, 0xA0, 0x80], .long 7, .unusable,
          .utf8 "B", .classRef 6, .utf8 "C", .utf8 "()V", .rawUtf8 [0xFF], .utf8 "x", .utf8 "I",
          .nameAndType 11 12] ∧
      (afterAll someCalls ClassFile.mixedFile.pool).AppendOnly := by
  have fresh : Fresh ClassFile.mixedFile.pool := .decoded ClassFile.decode_mixed
  have allowed : ∀ call ∈ someCalls, call.Allowed := by
    simp [someCalls, PoolCall.Allowed]
  exact ⟨fresh, allowed, by decide +kernel, appendOnly_afterAll fresh allowed⟩

/-! ## What is found

A text or a symbol is searched for in the slots. A table would tell the same slot if it was filled
whenever a constant is appended, and kept what it has. -/

/-- What was first put into each slot, behind what was put into those that there were before. -/
def filled : List PoolCall → ConstantPool → List Constant → List Constant
  | [], _, slots => slots
  | call :: calls, pool, slots =>
    let after := call.after pool
    filled calls after (slots ++ after.entries.toList.drop pool.entries.size)

/-- The slot still holds what was first put into it, or this was pointed elsewhere. -/
def Descends (first now : Constant) : Prop :=
  now = first ∨ first.isRepointable ∧ now.isRepointable

private theorem size_le_of_effect {call : PoolCall} {before after : ConstantPool}
    {outcome : Except Fault Unit} (effect : PoolCall.Effect before call outcome after) :
    before.entries.size ≤ after.entries.size := by
  by_contra shorter
  have within : after.entries.size < before.entries.size := Nat.lt_of_not_le shorter
  -- The first slot that is missing cannot have kept its constant, nor have been given another.
  have missing : after.entries[after.entries.size]? = none := Array.getElem?_eq_none (Nat.le_refl _)
  rcases effect.entry (Array.getElem?_eq_getElem within) with
    still | ⟨_, _, _, _, -, -, -, -, moved⟩
  · rw [missing] at still
    cases still
  · rw [missing] at moved
    cases moved

private theorem descends_of_effect {call : PoolCall} {before after : ConstantPool}
    {outcome : Except Fault Unit} (effect : PoolCall.Effect before call outcome after)
    {slots : List Constant} (descends : List.Forall₂ Descends slots before.entries.toList) :
    List.Forall₂ Descends (slots ++ after.entries.toList.drop before.entries.size)
      after.entries.toList := by
  have grown := size_le_of_effect effect
  have length : slots.length = before.entries.size := descends.length_eq.trans Array.length_toList
  have all : after.entries.toList.length =
      (slots ++ after.entries.toList.drop before.entries.size).length := by
    rw [List.length_append, List.length_drop, length, Array.length_toList]
    omega
  -- An older slot still descends from what it was first, and a slot that is new is its own
  -- beginning.
  refine forall₂_of_getElem? all fun position first here => ?_
  by_cases older : position < slots.length
  · rw [List.getElem?_append_left older] at here
    obtain ⟨now, there, descended⟩ := forall₂_getElem? descends here
    rw [Array.getElem?_toList] at there ⊢
    rcases effect.entry there with still | ⟨_, _, _, new, -, -, -, changed, moved⟩
    · exact ⟨now, still, descended⟩
    · obtain ⟨movable, movable'⟩ := PoolRename.repointable_of_change changed
      refine ⟨new, moved, .inr ⟨?_, movable'⟩⟩
      rcases descended with rfl | ⟨movable, -⟩
      · exact movable
      · exact movable
  · rw [List.getElem?_append_right (Nat.le_of_not_lt older), List.getElem?_drop, length,
      Nat.add_sub_cancel' (by omega)] at here
    exact ⟨first, here, .inl rfl⟩

private theorem descends_filled {calls : List PoolCall} (allowed : ∀ call ∈ calls, call.Allowed)
    {pool : ConstantPool} {slots : List Constant}
    (descends : List.Forall₂ Descends slots pool.entries.toList) :
    List.Forall₂ Descends (filled calls pool slots) (afterAll calls pool).entries.toList := by
  induction calls generalizing pool slots with
  | nil => exact descends
  | cons call calls ih =>
    rw [List.forall_mem_cons] at allowed
    exact ih allowed.2 (descends_of_effect (PoolCall.effect allowed.1 pool) descends)

private theorem findIdx?_descends {key : Constant} (fixed : ¬ key.isRepointable)
    {slots now : List Constant} (descends : List.Forall₂ Descends slots now) :
    now.findIdx? (· == key) = slots.findIdx? (· == key) := by
  induction descends with
  | nil => rfl
  | @cons first entry _ _ head _ ih =>
    have same : (entry == key) = (first == key) := by
      rcases head with rfl | ⟨before, after⟩
      · rfl
      · rw [beq_eq_false_iff_ne.mpr (ne_of_apply_ne Constant.isRepointable (by simp_all)),
          beq_eq_false_iff_ne.mpr (ne_of_apply_ne Constant.isRepointable (by simp_all))]
    rw [List.findIdx?_cons, List.findIdx?_cons, same, ih]

/-- Searching for a constant that cannot be pointed elsewhere finds the slot that it was first put
into. -/
theorem slotOf?_afterAll {calls : List PoolCall} (allowed : ∀ call ∈ calls, call.Allowed)
    (pool : ConstantPool) {key : Constant} (fixed : ¬ key.isRepointable) :
    (afterAll calls pool).slotOf? key =
      ((filled calls pool pool.entries.toList).findIdx? (· == key)).map UInt16.ofNat := by
  have start : List.Forall₂ Descends pool.entries.toList pool.entries.toList :=
    List.forall₂_same.mpr fun _ _ => .inl rfl
  rw [slotOf?, ← findIdx?_descends fixed (descends_filled allowed start),
    ← List.findIdx?_toArray, Array.toArray_toList]

end JarRemap.ConstantPool
