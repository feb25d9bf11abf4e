import JarRemap.Attribute
import JarRemap.AccessFlags

/-!
# Class files

A class as its file holds it: every name is a slot of the constant pool, so a class that was read
and not changed is written back as it was.
-/

namespace JarRemap

inductive MemberKind
  | field
  | method
deriving DecidableEq, Repr

structure Member where
  access : AccessFlags
  name : Index
  descriptor : Index
  attributes : List Attribute
deriving DecidableEq, Repr

structure ClassFile where
  minor : UInt16
  major : UInt16
  pool : ConstantPool
  access : AccessFlags
  thisClass : Index
  /-- Zero for the root class and for module descriptions. -/
  superClass : Index
  interfaces : List Index
  fields : List Member
  methods : List Member
  attributes : List Attribute
deriving DecidableEq, Repr

/-- A member with its name and descriptor read from the pool. -/
structure MemberView where
  kind : MemberKind
  name : String
  descriptor : String
  access : AccessFlags
deriving DecidableEq, Repr

/-- Something that carries attributes: the class or one of its members. -/
inductive Site
  | wholeClass
  | member (kind : MemberKind) (position : Nat)
deriving DecidableEq, Repr

namespace ClassFile

def enumBase : String := "java/lang/Enum"

def name (file : ClassFile) : Except Fault String := file.pool.className file.thisClass

def superName (file : ClassFile) : Except Fault (Option String) :=
  if file.superClass = 0 then .ok none else some <$> file.pool.className file.superClass

def interfaceNames (file : ClassFile) : Except Fault (List String) :=
  file.interfaces.mapM file.pool.className

def members (file : ClassFile) : MemberKind → List Member
  | .field => file.fields
  | .method => file.methods

def withMembers (file : ClassFile) (kind : MemberKind) (members : List Member) : ClassFile :=
  match kind with
  | .field => { file with fields := members }
  | .method => { file with methods := members }

/-- The name and descriptor of a member. -/
def symbol (file : ClassFile) (member : Member) : Except Fault (String × String) :=
  return (← file.pool.utf8 member.name, ← file.pool.utf8 member.descriptor)

def symbols (file : ClassFile) (kind : MemberKind) : Except Fault (List (String × String)) :=
  (file.members kind).mapM file.symbol

def view (file : ClassFile) (kind : MemberKind) (member : Member) : Except Fault MemberView :=
  return ⟨kind, ← file.pool.utf8 member.name, ← file.pool.utf8 member.descriptor, member.access⟩

/-- Every field, then every method. -/
def memberViews (file : ClassFile) : Except Fault (List MemberView) :=
  return (← file.fields.mapM (file.view .field)) ++ (← file.methods.mapM (file.view .method))

/-- The position of the first member with exactly this name and descriptor. -/
def findMember? (file : ClassFile) (kind : MemberKind) (name descriptor : String) : Option Nat :=
  (file.members kind).findIdx? fun member =>
    file.pool.hasText member.name name && file.pool.hasText member.descriptor descriptor

/-- An enum carries the flag, or extends the enum base class directly. -/
def isEnum (file : ClassFile) : Except Fault Bool :=
  if file.access.contains .accEnum then .ok true
  else (· == some enumBase) <$> file.superName

def attributeName (file : ClassFile) (item : Attribute) : Except Fault String :=
  file.pool.utf8 item.name

def attributesAt (file : ClassFile) : Site → Option (List Attribute)
  | .wholeClass => some file.attributes
  | .member kind position => (file.members kind)[position]?.map Member.attributes

/-- A site that does not exist is left alone. -/
def withAttributesAt (file : ClassFile) (site : Site) (attributes : List Attribute) : ClassFile :=
  match site with
  | .wholeClass => { file with attributes := attributes }
  | .member kind position =>
    file.withMembers kind ((file.members kind).modify position fun member =>
      { member with attributes := attributes })

end ClassFile

end JarRemap
