import JarRemap.Proofs.ClassFile.Attributes
import JarRemap.Proofs.ClassFile.Built
import JarRemap.Proofs.ConstantPool.Calls
import JarRemap.Proofs.Remap.Meaning
import JarRemap.Proofs.Synthetic

/-!
# Classes that are written and read again

Every stage writes its classes, and the next one reads them. A class that was read has a pool laid out
as in a class file and all its names. So has what a stage makes of it, and therefore the next stage
finds it under the name that it has then.
-/

namespace JarRemap

open ConstantPool

namespace ClassFile

/-- Whatever is written of the class can be read again. -/
structure Writable (file : ClassFile) : Prop where
  sound : file.pool.Sound
  resolves : file.Resolves

theorem writable_decoded {bytes : Bytes} {file : ClassFile} (read : decode bytes = .ok file) :
    file.Writable :=
  ⟨(whole_decoded read).sound, (whole_decoded read).resolves⟩

theorem Writable.read_again {file : ClassFile} (writable : file.Writable) {bytes : Bytes}
    (encoded : file.encode = .ok bytes) :
    ∃ again, decode bytes = .ok again ∧ again.name = file.name := by
  have read := decode_of_encode writable.sound writable.resolves encoded
  refine ⟨_, read, ?_⟩
  obtain ⟨name, named⟩ := writable.resolves.name
  -- What is read has a pool with the same entries, in which the name is found under the same index.
  have same : Extends file.pool (ofEntries file.pool.entries.toList) := by
    rw [ofEntries, Array.toArray_toList]
    exact ⟨fun _ _ => id, Nat.le_max_left _ _⟩
  rw [ClassFile.name, ClassFile.name, named]
  exact same.className named

/-! ## Classes with the names that they had -/

def SoundPool (file : ClassFile) : Prop := file.pool.Sound

theorem moves_inPool_sound {α : Type} {edit : PoolEdit α} (moves : Moves (Preserved Sound) edit) :
    Moves (Preserved SoundPool) (inPool edit) := fun file => (moves_inPool moves file).pool

instance : Decorating (Preserved SoundPool) where
  appends appends := moves_inPool_sound (appends _)
  attributes file site attributes sound := by
    rw [SoundPool, withAttributesAt_pool]
    exact sound

/-- No name is different, and the pool is as good as it was. -/
structure Unrenamed (old new : ClassFile) : Prop where
  names : SameNames old new
  sound : Preserved SoundPool old new

instance : Decorating Unrenamed where
  refl file := ⟨refl file, id⟩
  trans _ _ _ first second := ⟨IsTrans.trans _ _ _ first.names second.names,
    second.sound ∘ first.sound⟩
  appends appends file := ⟨Appending.appends appends file, Appending.appends appends file⟩
  attributes file site attributes := ⟨Decorating.attributes file site attributes,
    Decorating.attributes file site attributes⟩

section

variable {old new : ClassFile}

theorem SameNames.resolves (same : SameNames old new) (resolves : old.Resolves) : new.Resolves where
  name := by
    rw [same.thisClass]
    exact resolves.name.imp fun _ => same.pool.className
  superName := by
    rw [same.superClass]
    exact fun derived => (resolves.superName derived).imp fun _ => same.pool.className
  interfaces := by
    rw [same.interfaces]
    exact fun index member => (resolves.interfaces index member).imp fun _ => same.pool.className
  members kind member found := by
    -- Members are compared by the slots for name and descriptor: attributes may be different.
    have slots : (member.name, member.descriptor) ∈ new.symbolSlots kind :=
      List.mem_map.mpr ⟨member, found, rfl⟩
    rw [same.symbolSlots] at slots
    obtain ⟨other, among, here⟩ := List.mem_map.mp slots
    obtain ⟨named, described⟩ := resolves.members kind other among
    obtain ⟨name, descriptor⟩ := Prod.mk.inj here
    rw [name] at named
    rw [descriptor] at described
    exact ⟨named.imp fun _ => same.pool.utf8, described.imp fun _ => same.pool.utf8⟩

theorem Unrenamed.writable (same : Unrenamed old new) (writable : old.Writable) : new.Writable :=
  ⟨same.sound writable.sound, same.names.resolves writable.resolves⟩

theorem Unrenamed.name (same : Unrenamed old new) (writable : old.Writable) :
    new.name = old.name := by
  obtain ⟨name, named⟩ := writable.resolves.name
  rw [ClassFile.name, ClassFile.name, same.names.thisClass, named]
  exact same.names.pool.className named

end

theorem unrenamed_of_same {old new : ClassFile} (pool : new.pool = old.pool)
    (thisClass : new.thisClass = old.thisClass) (superClass : new.superClass = old.superClass)
    (interfaces : new.interfaces = old.interfaces)
    (slots : ∀ kind, new.symbolSlots kind = old.symbolSlots kind) : Unrenamed old new := by
  refine ⟨sameNames_of_same ?_ thisClass superClass interfaces slots, ?_⟩
  · rw [pool]
    exact refl old.pool
  · rw [Preserved, SoundPool, SoundPool, pool]
    exact id

theorem unrenamed_withAccess (file : ClassFile) (change : Site → AccessFlags → AccessFlags) :
    Unrenamed file (file.withAccess change) := by
  refine unrenamed_of_same rfl rfl rfl rfl fun kind => List.ext_getElem? fun position => ?_
  rw [symbolSlots, symbolSlots, members_withAccess, List.getElem?_map, List.getElem?_map,
    List.getElem?_mapIdx]
  cases (file.members kind)[position]? <;> rfl

end ClassFile

open ClassFile

/-- Rules change nothing but access values. -/
theorem RuleSet.unrenamed_of_applyTo {set after : RuleSet} {tracked opened : TrackedClass}
    {changed : Bool} (applied : set.applyTo tracked = .ok (after, opened, changed)) :
    opened.first = tracked.first ∧ Unrenamed tracked.current opened.current := by
  obtain ⟨settle, -, rfl⟩ := RuleSet.exists_withAccess applied
  exact ⟨rfl, unrenamed_withAccess tracked.current settle⟩

/-- Nor does stripping. -/
theorem Synthetic.unrenamed_of_strip {file stripped : ClassFile} {changed : Bool}
    (strips : Synthetic.strip file = .ok (stripped, changed)) : Unrenamed file stripped := by
  obtain ⟨change, rfl⟩ := Synthetic.exists_withAccess strips
  exact unrenamed_withAccess file change

/-! ## Classes with new names -/

namespace RenamePlan

private theorem moves_pass_sound (selected : PoolRename → Bool) (item : Index × PoolRename) :
    Moves (Preserved SoundPool) (pass selected item) := by
  rw [pass]
  split
  · exact moves_inPool_sound (moves_edit_sound item.2 item.1)
  · exact moves_pure _

private theorem moves_setMemberSymbol_sound (kind : MemberKind) (position : Nat)
    (name descriptor : String) :
    Moves (Preserved SoundPool) (setMemberSymbol kind position name descriptor) := by
  have interns (text : String) : Moves (Preserved SoundPool) (inPool (utf8Index text)) :=
    Appending.appends fun _ _ => moves_utf8Index text
  refine (interns name).bind fun _ => (interns descriptor).bind fun _ => moves_modify fun file => ?_
  cases kind <;> exact id

theorem moves_apply_sound (plan : RenamePlan) : Moves (Preserved SoundPool) plan.apply := by
  have passes (selected : PoolRename → Bool) :
      Moves (Preserved SoundPool) (plan.pool.forM (pass selected)) :=
    moves_forM fun item _ => moves_pass_sound selected item
  have members : Moves (Preserved SoundPool) plan.renameMembers :=
    moves_forM fun rename _ => moves_setMemberSymbol_sound _ _ _ _
  -- Only passes over the pool and the members' symbols touch it, each by edits that keep it sound.
  rw [apply, renameClasses_eq, renameSymbols_eq, retypeMethodTypes_eq]
  split
  · exact moves_pure _
  · exact (passes _).bind fun _ => (passes _).bind fun _ => (passes _).bind fun _ => members.bind
      fun _ => (moves_renameInners plan).bind fun _ => (moves_renameEnclosing plan).bind
        fun _ => moves_pure _

theorem Carried.resolves {symbols : SymbolMap} {bootstrap : List Attribute.BootstrapMethod}
    {owner : String} {old new : ClassFile} (carried : Carried symbols bootstrap owner old new)
    (resolves : old.Resolves) : new.Resolves := by
  have named {index : Index} (there : ∃ text, old.pool.className index = .ok text) :
      ∃ text, new.pool.className index = .ok text := by
    obtain ⟨text, there⟩ := there
    obtain ⟨renamed, -, there⟩ := carried.className there
    exact ⟨renamed, there⟩
  refine ⟨?_, ?_, ?_, fun kind member found => ?_⟩
  · rw [carried.thisClass]
    exact named resolves.name
  · rw [carried.superClass]
    exact fun derived => named (resolves.superName derived)
  · rw [carried.interfaces]
    exact fun index member => named (resolves.interfaces index member)
  · -- A member of the new class stands at the position of an old one, whose new symbol can be read.
    obtain ⟨position, here⟩ := List.mem_iff_getElem?.mp found
    have within : position < (old.members kind).length :=
      carried.members_length kind ▸ (List.getElem?_eq_some_iff.mp here).1
    obtain ⟨_, renamed, _, -, -, there, read⟩ :=
      carried.member (List.getElem?_eq_getElem within)
    obtain rfl := Option.some.inj (here.symm.trans there)
    simp only [ClassFile.symbol, bind_ok_iff, pure_ok_iff] at read
    obtain ⟨name, named, descriptor, described, -⟩ := read
    exact ⟨⟨name, named⟩, descriptor, described⟩

end RenamePlan

theorem Remap.writable_of_remapClass {symbols : SymbolMap} {before after : ClassFile} {changed : Bool}
    (writable : before.Writable) (gives : Gives (Remap.remapClass symbols) before changed after) :
    after.Writable := by
  obtain ⟨owner, bootstrap, -, -, carried⟩ := Remap.remapClass_carried writable.sound.indexed gives
  refine ⟨?_, carried.resolves writable.resolves⟩
  have reads (look : ClassFile → Except Fault RenamePlan) :
      Moves (Preserved SoundPool) (ClassFile.read look) := fun _ => id
  have moves : Moves (Preserved SoundPool) (Remap.remapClass symbols) :=
    (reads _).bind fun plan => (RenamePlan.moves_apply_sound plan).bind fun _ =>
      (Remap.moves_renameSignatures symbols).bind fun _ => moves_pure _
  exact gives.moved moves writable.sound

end JarRemap
