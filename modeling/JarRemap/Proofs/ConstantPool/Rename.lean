import JarRemap.Proofs.ConstantPool.Edit
import JarRemap.RenamePlan

/-!
# Renaming in a pool

A rename points one slot at new texts. No other slot changes, and as texts and symbols are never
renamed themselves, all of them can be read as before.
-/

namespace JarRemap

/-- A constant of which a rename may point one index at something else. -/
def Constant.isRepointable : Constant → Bool
  | classRef _ | fieldRef .. | methodRef .. | interfaceMethodRef .. | methodType _ | dynamic ..
  | invokeDynamic .. => true
  | _ => false

namespace ConstantPool

/-! ## What every rename keeps -/

/-- All texts and symbols can still be read, and there is no more than room for new slots. -/
structure Keeps (old new : ConstantPool) : Prop where
  utf8 : ∀ {index text}, old.utf8 index = .ok text → new.utf8 index = .ok text
  nameAndType : ∀ {index symbol}, old.nameAndType index = .ok symbol →
    new.nameAndType index = .ok symbol
  size : new.entries.size ≤ max old.entries.size maxSlots

/-- And the slot keeps its constant. -/
structure Leaves (index : Index) (old new : ConstantPool) : Prop extends Keeps old new where
  entry : ∀ {entry}, old.entries[index.toNat]? = some entry → new.entries[index.toNat]? = some entry

instance : IsPreorder ConstantPool Keeps where
  refl pool := ⟨id, id, Nat.le_max_left _ _⟩
  trans _ _ _ first second := by
    have sizes := And.intro first.size second.size
    exact ⟨second.utf8 ∘ first.utf8, second.nameAndType ∘ first.nameAndType, by omega⟩

instance (index : Index) : IsPreorder ConstantPool (Leaves index) where
  refl pool := ⟨refl pool, id⟩
  trans _ _ _ first second :=
    ⟨IsTrans.trans _ _ _ first.toKeeps second.toKeeps, second.entry ∘ first.entry⟩

theorem Extends.keeps {old new : ConstantPool} (grown : Extends old new) : Keeps old new :=
  ⟨grown.utf8, grown.nameAndType, grown.size⟩

theorem Extends.leaves {old new : ConstantPool} (grown : Extends old new) (index : Index) :
    Leaves index old new :=
  ⟨grown.keeps, grown.entry _ _⟩

theorem Keeps.indexed {old new : ConstantPool} (keeps : Keeps old new) (indexed : old.Indexed) :
    new.Indexed := by
  have size := keeps.size
  unfold Indexed maxSlots at *
  omega

/-! ## Pointing a slot at something else -/

/-- A constant that is neither a text nor a symbol, so that nothing is read through it that a rename
looks up. -/
def Movable (entry : Constant) : Prop :=
  (∀ text, entry ≠ .utf8 text) ∧ ∀ name descriptor, entry ≠ .nameAndType name descriptor

/-- The pool with another constant in the slot. -/
def withEntry (pool : ConstantPool) (index : Index) (entry : Constant) : ConstantPool :=
  { pool with entries := pool.entries.setIfInBounds index.toNat entry }

theorem withEntry_other {pool : ConstantPool} {index : Index} {entry : Constant} {slot : Nat}
    (different : slot ≠ index.toNat) : (pool.withEntry index entry).entries[slot]? = pool.entries[slot]? :=
  Array.getElem?_setIfInBounds_ne different.symm

theorem withEntry_entry {pool : ConstantPool} {index : Index} {old : Constant} (new : Constant)
    (here : pool.entries[index.toNat]? = some old) :
    (pool.withEntry index new).entries[index.toNat]? = some new :=
  Array.getElem?_setIfInBounds_self_of_lt (Array.getElem?_eq_some_iff.mp here).1

private theorem withEntry_lookup {pool : ConstantPool} {index place : Index}
    {old new entry : Constant} (here : pool.entries[index.toNat]? = some old) (different : entry ≠ old)
    (found : pool.lookup place = .ok entry) : (pool.withEntry index new).lookup place = .ok entry := by
  rw [lookup_ok_iff] at found ⊢
  refine ⟨?_, found.2⟩
  rw [withEntry_other]
  · exact found.1
  · intro same
    rw [same, here] at found
    exact different (Option.some.inj found.1).symm

theorem withEntry_keeps {pool : ConstantPool} {index : Index} {old : Constant}
    (new : Constant) (here : pool.entries[index.toNat]? = some old) (movable : Movable old) :
    Keeps pool (pool.withEntry index new) where
  utf8 found := by
    rw [utf8_ok_iff] at found ⊢
    exact withEntry_lookup here (movable.1 _).symm found
  nameAndType found := by
    rw [nameAndType_ok_iff] at found ⊢
    obtain ⟨first, second, entry, named, described⟩ := found
    rw [utf8_ok_iff] at named described
    -- Neither the symbol nor one of its texts is what is replaced.
    refine ⟨first, second, withEntry_lookup here (movable.2 _ _).symm entry, ?_, ?_⟩
    · exact (utf8_ok_iff _ _ _).mpr (withEntry_lookup here (movable.1 _).symm named)
    · exact (utf8_ok_iff _ _ _).mpr (withEntry_lookup here (movable.1 _).symm described)
  size := by
    rw [withEntry, Array.size_setIfInBounds]
    exact Nat.le_max_left _ _

section

variable {index : Index} {expected : Expectation} {change : Constant → Option Constant}

theorem ran_repoint (pool : ConstantPool) :
    ran (repoint index expected change) pool =
        (.error (.badIndex index expected), pool) ∨
      ∃ old new, pool.entries[index.toNat]? = some old ∧ change old = some new ∧
        ran (repoint index expected change) pool = (.ok (), pool.withEntry index new) := by
  cases changes : pool.entries[index.toNat]?.bind change with
  | none =>
    left
    simp [repoint, changes]
  | some new =>
    right
    obtain ⟨old, here, changed⟩ := Option.bind_eq_some_iff.mp changes
    refine ⟨old, new, here, changed, ?_⟩
    simp [repoint, changes, withEntry]

theorem moves_repoint_keeps (movable : ∀ old new, change old = some new → Movable old) :
    Moves Keeps (repoint index expected change) := by
  intro pool
  rcases ran_repoint pool with fails | ⟨old, new, here, changed, runs⟩
  · rw [fails]
    exact refl pool
  · rw [runs]
    exact withEntry_keeps new here (movable old new changed)

theorem moves_repoint_leaves {other : Index} (different : other ≠ index)
    (movable : ∀ old new, change old = some new → Movable old) :
    Moves (Leaves other) (repoint index expected change) := by
  intro pool
  refine ⟨moves_repoint_keeps movable pool, fun {entry} found => ?_⟩
  rcases ran_repoint pool with fails | ⟨old, new, here, changed, runs⟩
  · rw [fails]
    exact found
  · rw [runs, withEntry_other]
    · exact found
    · exact fun same => different (UInt16.toNat_inj.mp same)

theorem repointed_entry {before after : ConstantPool} {old : Constant}
    (here : before.entries[index.toNat]? = some old)
    (gives : Gives (repoint index expected change) before () after) :
    ∃ new, change old = some new ∧ after.entries[index.toNat]? = some new := by
  rcases ran_repoint before with fails | ⟨found, new, there, changed, runs⟩
  · rw [Gives, fails] at gives
    cases gives
  · rw [Gives, runs] at gives
    obtain rfl := (Prod.mk.inj gives).2
    obtain rfl := Option.some.inj (here.symm.trans there)
    exact ⟨new, changed, withEntry_entry new here⟩

end

end ConstantPool

/-! ## Carrying out one rename -/

open ConstantPool

namespace PoolRename

/-- What a rename does to its slot. -/
def edit (index : Index) : PoolRename → PoolEdit Unit
  | class_ name => renameClass index name
  | symbol name descriptor => renameMember index name descriptor
  | methodType descriptor => retypeMethodType index descriptor

/-- A constant that was pointed at what the rename asks for. -/
def Done (rename : PoolRename) (pool : ConstantPool) (old new : Constant) : Prop :=
  match rename with
  | class_ name => (∃ text, old = .classRef text) ∧
      ∃ text, new = .classRef text ∧ pool.utf8 text = .ok name
  | symbol name descriptor => ∃ index, withSymbol index old = some new ∧
      pool.nameAndType index = .ok (name, descriptor)
  | methodType descriptor => (∃ text, old = .methodType text) ∧
      ∃ text, new = .methodType text ∧ pool.utf8 text = .ok descriptor

theorem Done.keeps {rename : PoolRename} {pool later : ConstantPool}
    {old new : Constant} (done : rename.Done pool old new) (keeps : Keeps pool later) :
    rename.Done later old new := by
  cases rename with
  | class_ name =>
    obtain ⟨kind, text, same, named⟩ := done
    exact ⟨kind, text, same, keeps.utf8 named⟩
  | symbol name descriptor =>
    obtain ⟨index, same, named⟩ := done
    exact ⟨index, same, keeps.nameAndType named⟩
  | methodType descriptor =>
    obtain ⟨kind, text, same, described⟩ := done
    exact ⟨kind, text, same, keeps.utf8 described⟩

/-- What the rename makes of the constant in its slot, if what it asks for is in slot `place`. -/
def change : PoolRename → Index → Constant → Option Constant
  | class_ _ => withName
  | symbol .. => withSymbol
  | methodType _ => withDescriptor

/-- A rename replaces one index of a constant that may be pointed elsewhere, and nothing of others. -/
theorem repointable_of_change {rename : PoolRename} {place : Index} {old new : Constant}
    (changed : rename.change place old = some new) :
    old.isRepointable = true ∧ new.isRepointable = true := by
  cases rename <;> cases old <;>
    simp only [change, withName, withSymbol, withDescriptor, reduceCtorEq, Option.some.injEq]
      at changed <;>
    subst changed <;> exact ⟨rfl, rfl⟩

theorem movable_of_change {rename : PoolRename} {place : Index} {old new : Constant}
    (changed : rename.change place old = some new) : Movable old := by
  have repointable := (repointable_of_change changed).1
  constructor
  · rintro text rfl
    cases repointable
  · rintro name descriptor rfl
    cases repointable

/-- Every rename first asks for a text or a symbol and then points its slot there. -/
theorem edit_shape (rename : PoolRename) (index : Index) :
    ∃ (asked : PoolEdit Index) (expected : Expectation),
      rename.edit index = (do repoint index expected (rename.change (← asked))) ∧ Asks asked ∧
      ∀ before place after, before.Indexed → Gives asked before place after →
        ∀ old new, rename.change place old = some new → rename.Done after old new := by
  -- What was asked for is read back from its slot, so the constant that is pointed there says it.
  cases rename with
  | class_ name =>
    refine ⟨utf8Index name, .classEntry, rfl, fun _ _ => moves_utf8Index name, ?_⟩
    intro before place after indexed gives old new changed
    cases old <;> simp [change, withName] at changed
    exact ⟨⟨_, rfl⟩, place, changed.symm, utf8Index_reads indexed gives⟩
  | symbol name descriptor =>
    refine ⟨nameAndTypeIndex name descriptor, .memberReference, rfl,
      fun _ _ => moves_nameAndTypeIndex name descriptor, ?_⟩
    intro before place after indexed gives old new changed
    exact ⟨place, changed, nameAndTypeIndex_reads indexed gives⟩
  | methodType descriptor =>
    refine ⟨utf8Index descriptor, .methodType, rfl, fun _ _ => moves_utf8Index descriptor, ?_⟩
    intro before place after indexed gives old new changed
    cases old <;> simp [change, withDescriptor] at changed
    exact ⟨⟨_, rfl⟩, place, changed.symm, utf8Index_reads indexed gives⟩

theorem moves_edit_leaves (rename : PoolRename) {index other : Index} (different : other ≠ index) :
    Moves (Leaves other) (rename.edit index) := by
  obtain ⟨asked, expected, shape, asks, -⟩ := edit_shape rename index
  rw [shape]
  have left : Moves (Leaves other) asked := fun pool => (asks Extends pool).leaves other
  exact left.bind fun place => moves_repoint_leaves different fun _ _ => movable_of_change

theorem moves_edit_keeps (rename : PoolRename) (index : Index) : Moves Keeps (rename.edit index) := by
  obtain ⟨asked, expected, shape, asks, -⟩ := edit_shape rename index
  rw [shape]
  have kept : Moves Keeps asked := fun pool => (asks Extends pool).keeps
  exact kept.bind fun place => moves_repoint_keeps fun _ _ => movable_of_change

/-- A rename that succeeds points the constant in its slot at what was asked for. -/
theorem edit_done {rename : PoolRename} {index : Index} {before after : ConstantPool} {old : Constant}
    (indexed : before.Indexed) (here : before.entries[index.toNat]? = some old)
    (gives : Gives (rename.edit index) before () after) :
    ∃ new, after.entries[index.toNat]? = some new ∧ rename.Done after old new := by
  obtain ⟨asked, expected, shape, only, done⟩ := edit_shape rename index
  rw [shape, gives_bind_iff] at gives
  obtain ⟨place, middle, asks, repoints⟩ := gives
  -- What was asked for is a text or a symbol, which the repointing keeps.
  have grown : Extends before middle := asks.moved (only Extends)
  obtain ⟨new, changed, there⟩ := repointed_entry (grown.entry _ _ here) repoints
  have kept : Keeps middle after :=
    repoints.moved (moves_repoint_keeps fun _ _ => movable_of_change)
  exact ⟨new, there, (done before place middle indexed asks old new changed).keeps kept⟩

end PoolRename

end JarRemap
