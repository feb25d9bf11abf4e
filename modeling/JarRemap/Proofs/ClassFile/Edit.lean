import JarRemap.ClassFile.Format
import JarRemap.Proofs.ClassFile.Frame
import JarRemap.Proofs.ConstantPool.Layout

/-!
# What edits of a class keep

A class whose names can be read stays one: interned names can be read, and names that could be read
still can when the pool has grown.
-/

namespace JarRemap.ClassFile

open ConstantPool

/-! ## Names that can be read -/

/-- The names that the class and its members refer to are in the pool. -/
structure Resolves (file : ClassFile) : Prop where
  name : ∃ text, file.pool.className file.thisClass = .ok text
  superName : file.superClass ≠ 0 → ∃ text, file.pool.className file.superClass = .ok text
  interfaces : ∀ index ∈ file.interfaces, ∃ text, file.pool.className index = .ok text
  members : ∀ kind, ∀ member ∈ file.members kind,
    (∃ text, file.pool.utf8 member.name = .ok text) ∧
      ∃ text, file.pool.utf8 member.descriptor = .ok text

theorem superName_ok_iff (file : ClassFile) (found : Option String) :
    file.superName = .ok found ↔ (file.superClass = 0 ∧ found = none) ∨
      (file.superClass ≠ 0 ∧ ∃ name, file.pool.className file.superClass = .ok name ∧
        found = some name) := by
  rw [superName]
  split
  next root => simp [root, eq_comm]
  next derived =>
    cases file.pool.className file.superClass <;> simp [derived, Functor.map, Except.map, eq_comm]

theorem exists_superName_iff (file : ClassFile) :
    (∃ found, file.superName = .ok found) ↔
      (file.superClass ≠ 0 → ∃ text, file.pool.className file.superClass = .ok text) := by
  simp only [superName_ok_iff]
  by_cases root : file.superClass = 0 <;> simp [root]

private theorem exists_symbol_iff (file : ClassFile) (member : Member) :
    (∃ found, file.symbol member = .ok found) ↔
      (∃ text, file.pool.utf8 member.name = .ok text) ∧
        ∃ text, file.pool.utf8 member.descriptor = .ok text := by
  simp only [symbol, bind_ok_iff, pure_ok_iff]
  constructor
  · rintro ⟨_, name, named, descriptor, described, -⟩
    exact ⟨⟨name, named⟩, descriptor, described⟩
  · rintro ⟨⟨name, named⟩, descriptor, described⟩
    exact ⟨_, name, named, descriptor, described, rfl⟩

private theorem discard_ok_iff {ε α : Type} (step : Except ε α) (done : Unit) :
    discard step = .ok done ↔ ∃ found, step = .ok found := by
  cases step <;> simp [discard, Functor.mapConst, Except.map]

theorem checkNames_ok_iff (file : ClassFile) : file.checkNames = .ok () ↔ file.Resolves := by
  simp only [checkNames, bind_ok_iff, discard_ok_iff, exists_superName_iff, interfaceNames, symbols,
    exists_mapM_ok_iff, exists_symbol_iff, exists_const]
  constructor
  · rintro ⟨name, superName, interfaces, fields, methods⟩
    exact ⟨name, superName, interfaces, fun kind => by cases kind; exacts [fields, methods]⟩
  · rintro ⟨name, superName, interfaces, members⟩
    exact ⟨name, superName, interfaces, members .field, members .method⟩

theorem Resolves.grown {file : ClassFile} {pool : ConstantPool} (resolves : file.Resolves)
    (grown : Extends file.pool pool) : Resolves { file with pool := pool } where
  name := resolves.name.imp fun _ => grown.className
  superName derived := (resolves.superName derived).imp fun _ => grown.className
  interfaces index member := (resolves.interfaces index member).imp fun _ => grown.className
  members kind member found := by
    have found : member ∈ file.members kind := by cases kind <;> exact found
    exact (resolves.members kind member found).imp (Exists.imp fun _ => grown.utf8)
      (Exists.imp fun _ => grown.utf8)

/-! ## Whole classes -/

/-- A class whose pool is laid out as in a class file and has all its names. -/
structure Whole (file : ClassFile) : Prop where
  sound : file.pool.Sound
  faithful : file.pool.Faithful
  resolves : file.Resolves

/-- A class with a pool that grew out of its own is still whole. -/
private theorem Whole.grown {α : Type} {edit : PoolEdit α} {file : ClassFile} (whole : file.Whole)
    (appends : Appends edit) : Whole { file with pool := (ran edit file.pool).2 } where
  sound := appends (Preserved Sound) file.pool whole.sound
  faithful := appends (Preserved Faithful) file.pool whole.faithful
  resolves := whole.resolves.grown (appends Extends file.pool)

theorem whole_inPool {α : Type} {edit : PoolEdit α} (appends : Appends edit) :
    Moves (Preserved Whole) (inPool edit) := fun _ whole => whole.grown appends

private theorem gives_in_pool {α : Type} {edit : PoolEdit α} {before after : ClassFile} {value : α}
    (appends : Appends edit) (gives : Gives (inPool edit) before value after) :
    Extends before.pool after.pool ∧ Gives edit before.pool value after.pool := by
  obtain ⟨pool, found, rfl⟩ := (gives_inPool_iff _ _ _ _).mp gives
  exact ⟨found.moved (appends Extends), found⟩

private theorem Whole.withInterface {file : ClassFile} {index : Index} {name : String}
    (whole : file.Whole) (named : file.pool.className index = .ok name) :
    Whole { file with interfaces := file.interfaces ++ [index] } where
  sound := whole.sound
  faithful := whole.faithful
  resolves :=
    { name := whole.resolves.name
      superName := whole.resolves.superName
      interfaces := by
        intro other member
        rcases List.mem_append.mp member with member | member
        · exact whole.resolves.interfaces other member
        · obtain rfl := List.mem_singleton.mp member
          exact ⟨name, named⟩
      members := whole.resolves.members }

private theorem Whole.withMembers {file : ClassFile} {kind : MemberKind} {members : List Member}
    (whole : file.Whole) (named : ∀ member ∈ members,
      (∃ text, file.pool.utf8 member.name = .ok text) ∧
        ∃ text, file.pool.utf8 member.descriptor = .ok text) :
    Whole (file.withMembers kind members) := by
  obtain ⟨sound, faithful, name, superName, interfaces, others⟩ := whole
  cases kind with
  | field =>
    exact ⟨sound, faithful, name, superName, interfaces, fun
      | .field => named
      | .method => others .method⟩
  | method =>
    exact ⟨sound, faithful, name, superName, interfaces, fun
      | .field => others .field
      | .method => named⟩

theorem whole_addInterface (name : String) : Moves (Preserved Whole) (addInterface name) := by
  intro file whole
  have appends : Appends (classIndex name) := fun _ _ => moves_classIndex name
  refine left_by_bind (whole_inPool appends file whole) fun index after gives => ?_
  have whole' : after.Whole := gives.moved (whole_inPool appends) whole
  obtain ⟨-, found⟩ := gives_in_pool appends gives
  exact whole'.withInterface (classIndex_reads whole.sound.indexed whole.faithful found)

/-! ## Members -/

/-- What interning keeps, and what a class has with any members whose names can be read. -/
class Naming (holds : ClassFile → Prop) : Prop where
  indexed : ∀ {file : ClassFile}, holds file → file.pool.Indexed
  interns : ∀ text, Moves (Preserved holds) (inPool (utf8Index text))
  members : ∀ {file : ClassFile}, holds file → ∀ kind, ∀ member ∈ file.members kind,
    (∃ text, file.pool.utf8 member.name = .ok text) ∧
      ∃ text, file.pool.utf8 member.descriptor = .ok text
  withMembers : ∀ {file : ClassFile} {kind : MemberKind} {members : List Member}, holds file →
    (∀ member ∈ members, (∃ text, file.pool.utf8 member.name = .ok text) ∧
      ∃ text, file.pool.utf8 member.descriptor = .ok text) → holds (file.withMembers kind members)

instance : Naming Whole where
  indexed whole := whole.sound.indexed
  interns text := whole_inPool fun _ _ => moves_utf8Index text
  members whole := whole.resolves.members
  withMembers := Whole.withMembers

section

variable {holds : ClassFile → Prop} [Naming holds]

/-- The class after two texts were interned, whatever is done with them then. -/
private theorem holds_of_texts {α : Type} {first second : String}
    {next : Index → Index → ClassEdit α} {file : ClassFile} (start : holds file)
    (rest : ∀ name descriptor (after : ClassFile), holds after →
      after.pool.utf8 name = .ok first → after.pool.utf8 descriptor = .ok second →
      holds (ran (next name descriptor) after).2) :
    holds (ran (do
      let name ← inPool (utf8Index first)
      let descriptor ← inPool (utf8Index second)
      next name descriptor) file).2 := by
  have interns : ∀ text, Moves (Preserved holds) (inPool (utf8Index text)) := Naming.interns
  have appends : ∀ text, Appends (utf8Index text) := fun text _ _ => moves_utf8Index text
  refine left_by_bind (interns first file start) fun name middle named => ?_
  have start' : holds middle := named.moved (interns first) start
  refine left_by_bind (interns second middle start') fun descriptor after described => ?_
  have start'' : holds after := described.moved (interns second) start'
  obtain ⟨-, names⟩ := gives_in_pool (appends first) named
  obtain ⟨grown, describes⟩ := gives_in_pool (appends second) described
  exact rest name descriptor after start'' (grown.utf8 (utf8Index_reads (Naming.indexed start) names))
    (utf8Index_reads (Naming.indexed start') describes)

theorem moves_addMember (kind : MemberKind) (access : AccessFlags) (name descriptor : String) :
    Moves (Preserved holds) (addMember kind access name descriptor) := by
  intro file start
  refine holds_of_texts start fun nameIndex descriptorIndex after start' named described => ?_
  refine Naming.withMembers start' fun member found => ?_
  rcases List.mem_append.mp found with old | new
  · exact Naming.members start' kind member old
  · obtain rfl := List.mem_singleton.mp new
    exact ⟨⟨name, named⟩, descriptor, described⟩

theorem moves_setMemberSymbol_named (kind : MemberKind) (position : Nat) (name descriptor : String) :
    Moves (Preserved holds) (setMemberSymbol kind position name descriptor) := by
  intro file start
  refine holds_of_texts start fun nameIndex descriptorIndex after start' named described => ?_
  refine Naming.withMembers start' fun member found => ?_
  obtain ⟨place, found⟩ := List.mem_iff_getElem?.mp found
  rw [List.getElem?_modify, Option.map_eq_map, Option.map_eq_some_iff] at found
  obtain ⟨old, here, changed⟩ := found
  have resolved := Naming.members start' kind old (List.mem_of_getElem? here)
  split at changed
  · subst changed
    exact ⟨⟨name, named⟩, descriptor, described⟩
  · obtain rfl : old = member := changed
    exact resolved

end

end JarRemap.ClassFile
