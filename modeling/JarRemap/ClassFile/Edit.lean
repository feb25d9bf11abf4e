import JarRemap.ClassFile
import JarRemap.ConstantPool.Edit

/-!
# Edits of a class file

Classes built in memory, new members, new names for old members, and attributes put on a class or a
member. An edit that fails keeps whatever it had done before.
-/

namespace JarRemap

/-- An edit of a class that may fail and still leaves a class behind. -/
abbrev ClassEdit := ExceptT Fault (StateM ClassFile)

namespace ClassFile

/-- Edits the pool of the class. -/
def inPool {α : Type} (edit : PoolEdit α) : ClassEdit α := ExceptT.mk fun file =>
  let pool := file.pool
  let file := { file with pool := .empty }
  let (outcome, pool) := edit.run.run pool
  (outcome, { file with pool := pool })

/-- Reads from the class as it stands. -/
def read {α : Type} (look : ClassFile → Except Fault α) : ClassEdit α := ExceptT.mk fun file =>
  (look file, file)

/-- Major version of classes built in memory. -/
def defaultMajor : UInt16 := 52

/-- A class without members and attributes. -/
def new (name : String) (superName : Option String) (access : AccessFlags) :
    Except Fault ClassFile :=
  let edit : PoolEdit (Index × Index) := do
    let thisClass ← ConstantPool.classIndex name
    match superName with
    | some superName => return (thisClass, ← ConstantPool.classIndex superName)
    | none => return (thisClass, 0)
  match edit.run.run .empty with
  | (.ok (thisClass, superClass), pool) =>
    .ok ⟨0, defaultMajor, pool, access, thisClass, superClass, [], [], [], []⟩
  | (.error fault, _) => .error fault

def addInterface (name : String) : ClassEdit Unit := do
  let index ← inPool (ConstantPool.classIndex name)
  modify fun file => { file with interfaces := file.interfaces ++ [index] }

/-- Appends a member without attributes and returns its position. -/
def addMember (kind : MemberKind) (access : AccessFlags) (name descriptor : String) :
    ClassEdit Nat := do
  let nameIndex ← inPool (ConstantPool.utf8Index name)
  let descriptorIndex ← inPool (ConstantPool.utf8Index descriptor)
  let position := ((← get).members kind).length
  modify fun file =>
    file.withMembers kind (file.members kind ++ [⟨access, nameIndex, descriptorIndex, []⟩])
  return position

/-- Gives the member at `position` another name and descriptor. The texts are interned even if there
is no such member. -/
def setMemberSymbol (kind : MemberKind) (position : Nat) (name descriptor : String) :
    ClassEdit Unit := do
  let nameIndex ← inPool (ConstantPool.utf8Index name)
  let descriptorIndex ← inPool (ConstantPool.utf8Index descriptor)
  modify fun file =>
    file.withMembers kind ((file.members kind).modify position fun member =>
      { member with name := nameIndex, descriptor := descriptorIndex })

/-- Gives the first attribute called `name` another body, or appends one if there is none. -/
def putAttribute (site : Site) (name : String) (body : Bytes) : ClassEdit Unit := do
  let file ← get
  match file.attributesAt site with
  | none => return
  | some attributes =>
    match Attribute.position? file.pool name attributes with
    | some position => modify (·.withAttributesAt site (Attribute.setBody position body attributes))
    | none =>
      let nameIndex ← inPool (ConstantPool.utf8Index name)
      modify (·.withAttributesAt site (attributes ++ [⟨nameIndex, body⟩]))

/-- Removes every attribute called `name`, and says whether there was one. -/
def removeAttribute (site : Site) (name : String) : ClassEdit Bool := do
  let file ← get
  match file.attributesAt site with
  | none => return false
  | some attributes =>
    let kept := Attribute.remove file.pool name attributes
    modify (·.withAttributesAt site kept)
    return kept.length != attributes.length

end ClassFile

end JarRemap
