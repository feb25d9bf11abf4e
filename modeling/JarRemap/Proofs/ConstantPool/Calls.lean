import JarRemap.Proofs.ConstantPool.Layout
import JarRemap.Proofs.ConstantPool.Rename
import Mathlib.Logic.Relation

/-!
# Calls on a pool

A pool is changed by calls alone, each of which may fail. A call appends constants, and a rename
that succeeds then points one slot elsewhere. What any call keeps follows from that.
-/

namespace JarRemap

namespace ConstantPool

/-! ## Growing -/

/-- There was room for a constant, which was appended. -/
def Pushed (old new : ConstantPool) : Prop :=
  ∃ constant : Constant, constant ≠ .unusable ∧
    old.entries.size + constant.slots.length ≤ maxSlots ∧ new = old.appended constant

/-- Constants were appended, one after another. -/
def Grows : ConstantPool → ConstantPool → Prop := Relation.ReflTransGen Pushed

instance : IsPreorder ConstantPool Grows where
  refl _ := .refl
  trans _ _ _ := .trans

theorem moves_push {constant : Constant} (usable : constant ≠ .unusable) :
    Moves Grows (push constant) :=
  moves_push_of fun _ room => .single ⟨constant, usable, room, rfl⟩

instance : Growth Grows where
  push plain := moves_push plain.1

theorem Grows.extends {old new : ConstantPool} (grows : Grows old new) : Extends old new := by
  induction grows with
  | refl => exact refl old
  | tail _ pushed ih =>
    obtain ⟨constant, usable, room, rfl⟩ := pushed
    exact IsTrans.trans _ _ _ ih (extends_appended room)

theorem Grows.formed {old new : ConstantPool} (grows : Grows old new) (formed : old.Formed) :
    new.Formed := by
  induction grows with
  | refl => exact formed
  | tail _ pushed ih =>
    obtain ⟨constant, usable, room, rfl⟩ := pushed
    exact ih.appended usable room

theorem Grows.faithful {old new : ConstantPool} (grows : Grows old new) (faithful : old.Faithful) :
    new.Faithful := by
  induction grows with
  | refl => exact faithful
  | tail _ pushed ih =>
    obtain ⟨constant, -, -, rfl⟩ := pushed
    exact ih.appended constant

/-! ## Room -/

/-- With room for a constant it can be asked for, and any room beyond that is left. -/
private theorem intern_succeeds {constant : Constant} {pool : ConstantPool} {free : Nat}
    (room : pool.entries.size + constant.slots.length + free ≤ maxSlots) :
    ∃ index after, Gives (intern constant) pool index after ∧ after.entries.size + free ≤ maxSlots := by
  cases found : pool.slotOf? constant with
  | some index =>
    refine ⟨index, pool, ?_, by omega⟩
    exact (gives_bind_iff _ _ _ _ _).mpr ⟨pool, pool, rfl, by rw [found]; rfl⟩
  | none =>
    have pushes := (gives_push_iff constant pool _ _).mpr ⟨by omega, rfl, rfl⟩
    refine ⟨_, _, (gives_bind_iff _ _ _ _ _).mpr ⟨pool, pool, rfl, by rw [found]; exact pushes⟩, ?_⟩
    rw [appended, size_append]
    exact room

private theorem classIndex_succeeds {pool : ConstantPool} (name : String)
    (room : pool.entries.size + 2 ≤ maxSlots) :
    ∃ index after, Gives (classIndex name) pool index after := by
  obtain ⟨text, middle, named, room⟩ : ∃ text middle, Gives (utf8Index name) pool text middle ∧
      middle.entries.size + 1 ≤ maxSlots := intern_succeeds room
  simp only [classIndex, gives_bind_iff]
  cases found : middle.classSlot? text with
  | some slot =>
    refine ⟨slot, middle, text, middle, named, middle, middle, rfl, ?_⟩
    rw [found]
    rfl
  | none =>
    refine ⟨.ofNat middle.entries.size, middle.appended (.classRef text), text, middle, named,
      middle, middle, rfl, ?_⟩
    rw [found]
    exact (gives_push_iff _ _ _ _).mpr ⟨room, rfl, rfl⟩

private theorem nameAndTypeIndex_succeeds {pool : ConstantPool} (name descriptor : String)
    (room : pool.entries.size + 3 ≤ maxSlots) :
    ∃ index after, Gives (nameAndTypeIndex name descriptor) pool index after := by
  obtain ⟨first, middle, named, room⟩ : ∃ text middle, Gives (utf8Index name) pool text middle ∧
      middle.entries.size + 2 ≤ maxSlots := intern_succeeds room
  obtain ⟨second, last, described, room⟩ : ∃ text last,
      Gives (utf8Index descriptor) middle text last ∧ last.entries.size + 1 ≤ maxSlots :=
    intern_succeeds room
  obtain ⟨index, after, interned, -⟩ := @intern_succeeds (.nameAndType first second) last 0 room
  simp only [nameAndTypeIndex, gives_bind_iff]
  exact ⟨index, after, first, middle, named, second, last, described, interned⟩

/-! ## Pointing a slot elsewhere -/

/-- A constant that may be pointed elsewhere takes one slot, and does use it. -/
private theorem plain_of_isRepointable {constant : Constant} (repointable : constant.isRepointable) :
    constant ≠ .unusable ∧ ¬ constant.isWide := by
  cases constant <;> simp_all [Constant.isRepointable, Constant.isWide]

/-- What is said of neither constant of the slot is said of the same slots as before. -/
private theorem withEntry_unless {pool : ConstantPool} {index : Index} {old new : Constant}
    (here : pool.entries[index.toNat]? = some old) (holds : Constant → Prop) (before : ¬ holds old)
    (after : ¬ holds new) (slot : Nat) :
    (∃ entry, (pool.withEntry index new).entries[slot]? = some entry ∧ holds entry) ↔
      ∃ entry, pool.entries[slot]? = some entry ∧ holds entry := by
  by_cases same : slot = index.toNat
  · subst same
    simp only [withEntry_entry new here, here, Option.some.injEq, exists_eq_left', before, after]
  · rw [withEntry_other same]

theorem Formed.withEntry {pool : ConstantPool} {index : Index} {old new : Constant}
    (formed : pool.Formed) (here : pool.entries[index.toNat]? = some old)
    (before : old.isRepointable) (after : new.isRepointable) :
    (pool.withEntry index new).Formed := by
  -- Neither constant is wide or unusable, so which slots are does not change.
  have unusable : ∀ slot : Nat, (pool.withEntry index new).entries[slot]? = some .unusable ↔
      pool.entries[slot]? = some .unusable := by
    intro slot
    have still := withEntry_unless here (fun entry => entry = .unusable)
      (plain_of_isRepointable before).1 (plain_of_isRepointable after).1 slot
    simpa only [exists_eq_right] using still
  have wide := withEntry_unless here (fun entry => entry.isWide = true)
    (plain_of_isRepointable before).2 (plain_of_isRepointable after).2
  constructor
  · rw [ConstantPool.withEntry, Array.size_setIfInBounds]
    exact formed.size
  · rw [unusable]
    exact formed.first
  · intro slot
    rw [unusable, wide]
    exact formed.behind slot

theorem Sound.withEntry {pool : ConstantPool} {index : Index} {old new : Constant}
    (sound : pool.Sound) (here : pool.entries[index.toNat]? = some old) (before : old.isRepointable)
    (after : new.isRepointable) : (pool.withEntry index new).Sound := by
  obtain ⟨size, first, behind⟩ := sound.formed.withEntry here before after
  refine ⟨size, first, behind, fun slot bytes found => ?_⟩
  by_cases same : slot = index.toNat
  · subst same
    rw [withEntry_entry new here] at found
    obtain rfl := Option.some.inj found
    cases after
  · rw [withEntry_other same] at found
    exact sound.kept slot bytes found

theorem moves_edit_sound (rename : PoolRename) (index : Index) :
    Moves (Preserved Sound) (rename.edit index) := by
  obtain ⟨asked, expected, shape, asks, -⟩ := rename.edit_shape index
  rw [shape]
  refine (asks (Preserved Sound)).bind fun place pool sound => ?_
  obtain fails | ⟨old, new, here, changed, runs⟩ :=
    @ran_repoint index expected (rename.change place) pool
  · rw [fails]
    exact sound
  · rw [runs]
    obtain ⟨before, after⟩ := PoolRename.repointable_of_change changed
    exact sound.withEntry here before after

end ConstantPool

open ConstantPool

/-! ## One call -/

/-- A call that changes a pool or asks it for a slot. -/
inductive PoolCall
  | push (constant : Constant)
  | utf8Index (text : String)
  | classIndex (name : String)
  | nameAndTypeIndex (name descriptor : String)
  | rename (index : Index) (asked : PoolRename)
deriving DecidableEq, Repr

namespace PoolCall

/-- What the call does, without the slot that it may return. -/
def edit : PoolCall → PoolEdit Unit
  | push constant => do let _ ← ConstantPool.push constant
  | utf8Index text => do let _ ← ConstantPool.utf8Index text
  | classIndex name => do let _ ← ConstantPool.classIndex name
  | nameAndTypeIndex name descriptor => do let _ ← ConstantPool.nameAndTypeIndex name descriptor
  | rename index asked => asked.edit index

def outcome (call : PoolCall) (pool : ConstantPool) : Except Fault Unit := (ran call.edit pool).1

/-- The pool that the call leaves, even if it fails. -/
def after (call : PoolCall) (pool : ConstantPool) : ConstantPool := (ran call.edit pool).2

/-- Everything may be pushed that is a constant at all. -/
def Allowed : PoolCall → Prop
  | push constant => constant ≠ .unusable
  | _ => True

/-- All that a call can do to a pool. -/
inductive Effect (before : ConstantPool) : PoolCall → Except Fault Unit → ConstantPool → Prop
  /-- A rename gets no further than this if it fails. -/
  | grown {call : PoolCall} {outcome : Except Fault Unit} {after : ConstantPool}
      (grows : Grows before after)
      (fails : ∀ index rename, call = .rename index rename → outcome ≠ .ok ()) :
      Effect before call outcome after
  | repointed {index place : Index} {rename : PoolRename} {middle : ConstantPool}
      {old new : Constant} (grows : Grows before middle)
      (here : middle.entries[index.toNat]? = some old) (changed : rename.change place old = some new)
      (done : before.Indexed → rename.Done middle old new) :
      Effect before (.rename index rename) (.ok ()) (middle.withEntry index new)

private theorem effect_rename (index : Index) (rename : PoolRename) (pool : ConstantPool) :
    Effect pool (.rename index rename) ((PoolCall.rename index rename).outcome pool)
      ((PoolCall.rename index rename).after pool) := by
  obtain ⟨asked, expected, shape, appends, done⟩ := rename.edit_shape index
  have grows := appends Grows pool
  simp only [outcome, after, edit, shape, ran_bind]
  -- It fails while it asks for a text or when the slot does not fit, or it points the slot there.
  cases asks : ran asked pool with
  | mk found middle =>
    rw [asks] at grows
    cases found with
    | error fault => exact .grown grows fun _ _ _ => nofun
    | ok place =>
      rcases @ran_repoint index expected (rename.change place) middle with
        fails | ⟨old, new, here, changed, runs⟩
      · simp only [fails]
        exact .grown grows fun _ _ _ => nofun
      · simp only [runs]
        exact .repointed grows here changed fun indexed =>
          done pool place middle indexed asks old new changed

theorem effect {call : PoolCall} (allowed : call.Allowed) (pool : ConstantPool) :
    Effect pool call (call.outcome pool) (call.after pool) := by
  -- All calls but a rename do nothing but append.
  have grown : Moves Grows call.edit → (∀ index rename, call ≠ .rename index rename) →
      Effect pool call (call.outcome pool) (call.after pool) :=
    fun moves other => .grown (moves pool) fun index rename same => absurd same (other index rename)
  cases call with
  | push constant => exact grown ((moves_push allowed).bind fun _ => moves_pure _) nofun
  | utf8Index text => exact grown ((moves_utf8Index text).bind fun _ => moves_pure _) nofun
  | classIndex name => exact grown ((moves_classIndex name).bind fun _ => moves_pure _) nofun
  | nameAndTypeIndex name descriptor =>
    exact grown ((moves_nameAndTypeIndex name descriptor).bind fun _ => moves_pure _) nofun
  | rename index rename => exact effect_rename index rename pool

/-- With room for three slots every call succeeds, unless it is a rename, which its slot may not fit. -/
theorem succeeds {call : PoolCall} (other : ∀ index rename, call ≠ .rename index rename)
    {pool : ConstantPool} (room : pool.entries.size + 3 ≤ maxSlots) : call.outcome pool = .ok () := by
  have done : ∀ edit : PoolEdit Index, (∃ index after, Gives edit pool index after) →
      (ran (do let _ ← edit) pool).1 = .ok () := by
    rintro edit ⟨index, after, gives⟩
    rw [ran_bind, gives]
    rfl
  -- A name and descriptor need the most room, with two texts and an entry of their own.
  cases call with
  | push constant =>
    have few : constant.slots.length ≤ 2 := by
      rw [Constant.slots]
      split <;> simp
    exact done _ ⟨_, _, (gives_push_iff constant pool _ _).mpr ⟨by omega, rfl, rfl⟩⟩
  | utf8Index text =>
    obtain ⟨index, after, gives, -⟩ := @intern_succeeds (.utf8 text) pool 2 room
    exact done _ ⟨index, after, gives⟩
  | classIndex name => exact done _ (classIndex_succeeds name (by omega))
  | nameAndTypeIndex name descriptor => exact done _ (nameAndTypeIndex_succeeds name descriptor room)
  | rename index rename => exact absurd rfl (other index rename)

section

variable {call : PoolCall} {before after : ConstantPool} {outcome : Except Fault Unit}

theorem Effect.formed (effect : Effect before call outcome after) (formed : before.Formed) :
    after.Formed := by
  cases effect with
  | grown grows _ => exact grows.formed formed
  | repointed grows here changed _ =>
    obtain ⟨movable, moved⟩ := PoolRename.repointable_of_change changed
    exact (grows.formed formed).withEntry here movable moved

/-- A slot keeps its constant unless the call is the rename that points it elsewhere. -/
theorem Effect.entry (effect : Effect before call outcome after) {slot : Nat} {old : Constant}
    (here : before.entries[slot]? = some old) :
    after.entries[slot]? = some old ∨
      ∃ index rename place new, call = .rename index rename ∧ outcome = .ok () ∧
        slot = index.toNat ∧ rename.change place old = some new ∧
        after.entries[slot]? = some new := by
  cases effect with
  | grown grows _ => exact .inl (grows.extends.entry slot old here)
  | @repointed index place rename middle found new grows there changed _ =>
    have still := grows.extends.entry slot old here
    by_cases same : slot = index.toNat
    · subst same
      obtain rfl := Option.some.inj (still.symm.trans there)
      exact .inr ⟨index, rename, place, new, rfl, rfl, rfl, changed, withEntry_entry new there⟩
    · rw [withEntry_other same]
      exact .inl still

theorem Effect.grows (effect : Effect before call outcome after) (fails : outcome ≠ .ok ()) :
    Grows before after := by
  cases effect with
  | grown grows _ => exact grows
  | repointed => exact absurd rfl fails

end

end PoolCall

end JarRemap
