import JarRemap.ClassFile.Edit
import JarRemap.Proofs.ConstantPool.Edit

/-!
# What edits of a class leave alone

An edit inside the pool leaves everything outside it as it is. An edit of attributes leaves the names
of the class and its members alone, and a new name for one member those of all others.
-/

namespace JarRemap.ClassFile

open ConstantPool

/-! ## The pool -/

theorem ran_inPool {α : Type} (edit : PoolEdit α) (file : ClassFile) :
    ran (inPool edit) file = ((ran edit file.pool).1, { file with pool := (ran edit file.pool).2 }) :=
  rfl

theorem gives_inPool_iff {α : Type} (edit : PoolEdit α) (before : ClassFile) (value : α)
    (after : ClassFile) :
    Gives (inPool edit) before value after ↔
      ∃ pool, Gives edit before.pool value pool ∧ after = { before with pool := pool } := by
  rw [Gives, ran_inPool, Prod.mk.injEq]
  constructor
  · rintro ⟨outcome, rfl⟩
    exact ⟨_, Prod.ext outcome rfl, rfl⟩
  · rintro ⟨pool, gives, rfl⟩
    rw [gives]
    exact ⟨rfl, rfl⟩

theorem gives_read_iff {α : Type} (look : ClassFile → Except Fault α) (before : ClassFile) (value : α)
    (after : ClassFile) :
    Gives (ClassFile.read look) before value after ↔ look before = .ok value ∧ after = before := by
  have runs : ran (ClassFile.read look) before = (look before, before) := rfl
  rw [Gives, runs, Prod.mk.injEq, eq_comm (a := after)]

/-- The pools are related, and nothing else is different. -/
structure InPool (related : ConstantPool → ConstantPool → Prop) (old new : ClassFile) : Prop where
  pool : related old.pool new.pool
  rest : new = { old with pool := new.pool }

instance (related : ConstantPool → ConstantPool → Prop) [IsPreorder ConstantPool related] :
    IsPreorder ClassFile (InPool related) where
  refl file := ⟨refl file.pool, rfl⟩
  trans _ _ _ first second :=
    ⟨IsTrans.trans _ _ _ first.pool second.pool, by rw [second.rest, first.rest]⟩

theorem moves_inPool {α : Type} {related : ConstantPool → ConstantPool → Prop} {edit : PoolEdit α}
    (moves : Moves related edit) : Moves (InPool related) (inPool edit) := fun file =>
  ⟨moves file.pool, rfl⟩

/-! ## Names -/

/-- Where the names and descriptors of the members are. -/
def symbolSlots (file : ClassFile) (kind : MemberKind) : List (Index × Index) :=
  (file.members kind).map fun member => (member.name, member.descriptor)

/-- The class has the same name, superclass and interfaces and as many members, in a pool that has
grown. -/
structure SameClass (old new : ClassFile) : Prop where
  pool : Extends old.pool new.pool
  thisClass : new.thisClass = old.thisClass
  superClass : new.superClass = old.superClass
  interfaces : new.interfaces = old.interfaces
  count : ∀ kind, (new.symbolSlots kind).length = (old.symbolSlots kind).length

/-- And its members have the names and descriptors that they had. -/
structure SameNames (old new : ClassFile) : Prop extends SameClass old new where
  symbolSlots : ∀ kind, new.symbolSlots kind = old.symbolSlots kind

/-- And so does the member at the position. -/
structure SameMember (kind : MemberKind) (position : Nat) (old new : ClassFile) : Prop
    extends SameClass old new where
  slot : (new.symbolSlots kind)[position]? = (old.symbolSlots kind)[position]?

instance : IsPreorder ClassFile SameClass where
  refl file := ⟨refl file.pool, rfl, rfl, rfl, fun _ => rfl⟩
  trans _ _ _ first second := ⟨IsTrans.trans _ _ _ first.pool second.pool,
    second.thisClass.trans first.thisClass, second.superClass.trans first.superClass,
    second.interfaces.trans first.interfaces,
    fun kind => (second.count kind).trans (first.count kind)⟩

instance : IsPreorder ClassFile SameNames where
  refl file := ⟨refl file, fun _ => rfl⟩
  trans _ _ _ first second := ⟨IsTrans.trans _ _ _ first.toSameClass second.toSameClass,
    fun kind => (second.symbolSlots kind).trans (first.symbolSlots kind)⟩

instance (kind : MemberKind) (position : Nat) : IsPreorder ClassFile (SameMember kind position) where
  refl file := ⟨refl file, rfl⟩
  trans _ _ _ first second := ⟨IsTrans.trans _ _ _ first.toSameClass second.toSameClass,
    second.slot.trans first.slot⟩

theorem SameNames.member {old new : ClassFile} (same : SameNames old new) (kind : MemberKind)
    (position : Nat) : SameMember kind position old new :=
  ⟨same.toSameClass, by rw [same.symbolSlots]⟩

theorem sameNames_of_same {old new : ClassFile} (pool : Extends old.pool new.pool)
    (thisClass : new.thisClass = old.thisClass) (superClass : new.superClass = old.superClass)
    (interfaces : new.interfaces = old.interfaces)
    (slots : ∀ kind, new.symbolSlots kind = old.symbolSlots kind) : SameNames old new :=
  ⟨⟨pool, thisClass, superClass, interfaces, fun kind => by rw [slots]⟩, slots⟩

theorem InPool.sameNames {old new : ClassFile} (same : InPool Extends old new) : SameNames old new := by
  rw [same.rest]
  exact sameNames_of_same same.pool rfl rfl rfl fun kind => by cases kind <;> rfl

/-- An appending edit leaves all names alone. -/
theorem moves_appends {α : Type} {edit : PoolEdit α} (appends : Appends edit) :
    Moves SameNames (inPool edit) := fun file =>
  (moves_inPool (appends Extends) file).sameNames

/-! ## Members -/

theorem members_withMembers (file : ClassFile) (kind other : MemberKind) (members : List Member) :
    (file.withMembers kind members).members other =
      if other = kind then members else file.members other := by
  cases kind <;> cases other <;> rfl

private theorem sameClass_modify (file : ClassFile) (kind : MemberKind) (position : Nat)
    (change : Member → Member) :
    SameClass file (file.withMembers kind ((file.members kind).modify position change)) := by
  have count : ∀ other, (symbolSlots (file.withMembers kind
      ((file.members kind).modify position change)) other).length =
      (file.symbolSlots other).length := by
    intro other
    rw [symbolSlots, symbolSlots, members_withMembers, List.length_map, List.length_map]
    split
    next same => rw [List.length_modify, same]
    · rfl
  cases kind <;> exact ⟨refl file.pool, rfl, rfl, rfl, count⟩

theorem moves_setMemberSymbol_class (kind : MemberKind) (position : Nat) (name descriptor : String) :
    Moves SameClass (setMemberSymbol kind position name descriptor) := by
  have interns : ∀ text, Moves SameClass (inPool (utf8Index text)) := fun text file =>
    (moves_appends (fun _ _ => moves_utf8Index text) file).toSameClass
  exact (interns name).bind fun _ => (interns descriptor).bind fun _ =>
    moves_modify fun file => sameClass_modify _ _ _ _

/-- Other attributes leave all names alone. -/
theorem sameNames_withAttributesAt (file : ClassFile) (site : Site) (attributes : List Attribute) :
    SameNames file (file.withAttributesAt site attributes) := by
  cases site with
  | wholeClass =>
    exact sameNames_of_same (refl file.pool) rfl rfl rfl fun kind => by cases kind <;> rfl
  | member kind position =>
    refine ⟨sameClass_modify _ _ _ _, fun other => ?_⟩
    rw [symbolSlots, symbolSlots, withAttributesAt, members_withMembers]
    split
    next same =>
      rw [same]
      refine List.ext_getElem? fun place => ?_
      rw [List.getElem?_map, List.getElem?_map, List.getElem?_modify]
      cases (file.members kind)[place]? <;> simp
      split <;> exact ⟨rfl, rfl⟩
    · rfl

/-- A relation that goes along with edits that append to the pool. -/
class Appending (related : ClassFile → ClassFile → Prop) : Prop
    extends IsPreorder ClassFile related where
  appends : ∀ {α : Type} {edit : PoolEdit α}, Appends edit → Moves related (inPool edit)

instance (related : ConstantPool → ConstantPool → Prop) [Growth related] :
    Appending (InPool related) where
  appends appends := moves_inPool (appends related)

/-- And with edits that give sites other attributes. -/
class Decorating (related : ClassFile → ClassFile → Prop) : Prop extends Appending related where
  attributes : ∀ (file : ClassFile) (site : Site) (attributes : List Attribute),
    related file (file.withAttributesAt site attributes)

instance : Decorating SameNames where
  appends := moves_appends
  attributes := sameNames_withAttributesAt

/-- A new name for one member is none for another. -/
theorem moves_setMemberSymbol {kind other : MemberKind} {position place : Nat}
    (different : kind ≠ other ∨ position ≠ place) (name descriptor : String) :
    Moves (SameMember other place) (setMemberSymbol kind position name descriptor) := by
  have interns : ∀ text, Moves (SameMember other place) (inPool (utf8Index text)) := fun text file =>
    (moves_appends (fun _ _ => moves_utf8Index text) file).member other place
  refine (interns name).bind fun _ => (interns descriptor).bind fun _ => moves_modify fun file => ?_
  refine ⟨sameClass_modify _ _ _ _, ?_⟩
  rw [symbolSlots, symbolSlots, members_withMembers]
  split
  next same =>
    have elsewhere : position ≠ place := different.resolve_left fun other => other same.symm
    rw [same, List.getElem?_map, List.getElem?_map, List.getElem?_modify]
    simp [elsewhere]
  · rfl

/-- A member that gets a new name and descriptor has these. -/
theorem setMemberSymbol_slot {kind : MemberKind} {position : Nat} {name descriptor : String}
    {before after : ClassFile} (indexed : before.pool.Indexed)
    (within : position < (before.symbolSlots kind).length)
    (gives : Gives (setMemberSymbol kind position name descriptor) before () after) :
    ∃ nameIndex descriptorIndex,
      (after.symbolSlots kind)[position]? = some (nameIndex, descriptorIndex) ∧
      after.pool.utf8 nameIndex = .ok name ∧ after.pool.utf8 descriptorIndex = .ok descriptor := by
  simp only [setMemberSymbol, gives_bind_iff, gives_inPool_iff, gives_modify_iff] at gives
  obtain ⟨nameIndex, _, ⟨named, names, rfl⟩, descriptorIndex, _, ⟨described, describes, rfl⟩, rfl⟩ :=
    gives
  have first : Extends before.pool named := names.moved (moves_utf8Index name)
  have second : Extends named described := describes.moved (moves_utf8Index descriptor)
  refine ⟨nameIndex, descriptorIndex, ?_, ?_, ?_⟩
  · have within : position < (before.members kind).length := by simpa [symbolSlots] using within
    have same : members { before with pool := described } kind = before.members kind := by
      cases kind <;> rfl
    rw [symbolSlots, members_withMembers, if_pos rfl, same, List.getElem?_map, List.getElem?_modify,
      List.getElem?_eq_getElem within]
    simp
  · cases kind <;> exact second.utf8 (utf8Index_reads indexed names)
  · cases kind <;> exact utf8Index_reads (first.indexed indexed) describes

end JarRemap.ClassFile
