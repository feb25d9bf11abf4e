import JarRemap.Proofs.ClassFile.Built
import JarRemap.Proofs.Structure.Names
import JarRemap.Proofs.ConstantPool.Calls

/-!
# Classes that calls lead to

A class is made or read, and then any calls are made on it and on its pool. A rename may point a slot
elsewhere, so what the pool remembers of its classes need not be what it holds. But every slot still
has an index, and members still have names.
-/

namespace JarRemap.ClassFile

open ConstantPool

/-- A class that was made or read, and on which calls were then made, with or without success. The
attributes of a site may be replaced by any others. -/
inductive Reached : ClassFile → Prop
  | made {name : String} {superName : Option String} {access : AccessFlags} {file : ClassFile}
      (made : ClassFile.new name superName access = .ok file) : Reached file
  | decoded {bytes : Bytes} {file : ClassFile} (read : decode bytes = .ok file) : Reached file
  | pool {file : ClassFile} (reached : Reached file) (call : PoolCall) :
      Reached (ran (inPool call.edit) file).2
  | addInterface {file : ClassFile} (reached : Reached file) (name : String) :
      Reached (ran (addInterface name) file).2
  | addMember {file : ClassFile} (reached : Reached file) (kind : MemberKind) (access : AccessFlags)
      (name descriptor : String) : Reached (ran (addMember kind access name descriptor) file).2
  | setMemberSymbol {file : ClassFile} (reached : Reached file) (kind : MemberKind) (position : Nat)
      (name descriptor : String) :
      Reached (ran (setMemberSymbol kind position name descriptor) file).2
  | putAttribute {file : ClassFile} (reached : Reached file) (site : Site) (name : String)
      (body : Bytes) : Reached (ran (putAttribute site name body) file).2
  | removeAttribute {file : ClassFile} (reached : Reached file) (site : Site) (name : String) :
      Reached (ran (removeAttribute site name) file).2
  | attributes {file : ClassFile} (reached : Reached file) (site : Site)
      (attributes : List Attribute) : Reached (file.withAttributesAt site attributes)

/-- Every slot of the pool has an index, and the names of the members can be read. -/
structure Legible (file : ClassFile) : Prop where
  indexed : file.pool.Indexed
  members : ∀ kind, ∀ member ∈ file.members kind,
    (∃ text, file.pool.utf8 member.name = .ok text) ∧
      ∃ text, file.pool.utf8 member.descriptor = .ok text

theorem Whole.legible {file : ClassFile} (whole : file.Whole) : file.Legible :=
  ⟨whole.sound.indexed, whole.resolves.members⟩

theorem Legible.withPool {file : ClassFile} {pool : ConstantPool} (legible : file.Legible)
    (keeps : Keeps file.pool pool) : Legible { file with pool := pool } where
  indexed := keeps.indexed legible.indexed
  members kind member found := by
    rw [members_withPool] at found
    exact (legible.members kind member found).imp (Exists.imp fun _ => keeps.utf8)
      (Exists.imp fun _ => keeps.utf8)

private theorem Legible.withMembers {file : ClassFile} {kind : MemberKind} {members : List Member}
    (legible : file.Legible) (named : ∀ member ∈ members,
      (∃ text, file.pool.utf8 member.name = .ok text) ∧
        ∃ text, file.pool.utf8 member.descriptor = .ok text) :
    Legible (file.withMembers kind members) := by
  obtain ⟨indexed, others⟩ := legible
  cases kind with
  | field =>
    exact ⟨indexed, fun
      | .field => named
      | .method => others .method⟩
  | method =>
    exact ⟨indexed, fun
      | .field => others .field
      | .method => named⟩

theorem SameNames.legible {old new : ClassFile} (same : SameNames old new) (legible : old.Legible) :
    new.Legible where
  indexed := same.pool.indexed legible.indexed
  members kind member found := by
    have slot : (member.name, member.descriptor) ∈ old.symbolSlots kind :=
      same.symbolSlots kind ▸ List.mem_map_of_mem found
    obtain ⟨earlier, there, slots⟩ := List.mem_map.mp slot
    obtain ⟨name, descriptor⟩ := Prod.mk.inj slots
    exact name ▸ descriptor ▸ (legible.members kind earlier there).imp
      (Exists.imp fun _ => same.pool.utf8) (Exists.imp fun _ => same.pool.utf8)

instance : Naming Legible where
  indexed := Legible.indexed
  interns text := fun file legible =>
    (moves_appends (fun _ _ => moves_utf8Index text) file).legible legible
  members := Legible.members
  withMembers := Legible.withMembers

/-- Anything at all may be pushed. -/
private theorem moves_call (call : PoolCall) : Moves Keeps call.edit := by
  have grown : Moves Extends call.edit → Moves Keeps call.edit := fun moves pool => (moves pool).keeps
  cases call with
  | push constant =>
    exact grown ((moves_push_of fun _ room => extends_appended room).bind fun _ => moves_pure _)
  | utf8Index text => exact grown ((moves_utf8Index text).bind fun _ => moves_pure _)
  | classIndex name => exact grown ((moves_classIndex name).bind fun _ => moves_pure _)
  | nameAndTypeIndex name descriptor =>
    exact grown ((moves_nameAndTypeIndex name descriptor).bind fun _ => moves_pure _)
  -- The pool does not extend the old one here, but indices and texts stay.
  | rename index rename => exact rename.moves_edit_keeps index

private theorem legible_addInterface (name : String) : Moves (Preserved Legible) (addInterface name) :=
  Moves.bind (fun file legible =>
      (moves_appends (fun _ _ => moves_classIndex name) file).legible legible)
    fun _ => moves_modify fun _ legible =>
      ⟨legible.indexed, fun
        | .field => legible.members .field
        | .method => legible.members .method⟩

theorem Reached.legible {file : ClassFile} (reached : file.Reached) : file.Legible := by
  -- Calls on attributes keep the names of members, so only the calls that make or rename one give any.
  induction reached with
  | made made => exact (whole_new made).legible
  | decoded read => exact (whole_decoded read).legible
  | pool _ call legible => exact legible.withPool (moves_call call _)
  | addInterface _ name legible => exact legible_addInterface name _ legible
  | addMember _ kind access name descriptor legible =>
    exact moves_addMember kind access name descriptor _ legible
  | setMemberSymbol _ kind position name descriptor legible =>
    exact moves_setMemberSymbol_named kind position name descriptor _ legible
  | putAttribute _ site name body legible =>
    exact SameNames.legible (moves_putAttribute site name body _) legible
  | removeAttribute _ site name legible =>
    exact SameNames.legible (moves_removeAttribute site name _) legible
  | attributes _ site attributes legible =>
    exact (sameNames_withAttributesAt _ site attributes).legible legible

end JarRemap.ClassFile
