import JarRemap.Fault

/-!
# Constant pool

The table of names, descriptors and literals that the rest of a class file refers to by slot number.
Slot 0 is never used, and a long or double takes two slots, of which the second is not used either.

The pool also remembers, for every class entry, the name it had when it was appended. A class is
looked up by that name, so an entry that was renamed later is still found under its first name.
-/

namespace JarRemap

abbrev Index := UInt16

inductive Constant
  /-- Slot 0, and the slot after a long or double. -/
  | unusable
  | utf8 (text : String)
  /-- Text with an unpaired surrogate, kept as the bytes it was read from. -/
  | rawUtf8 (bytes : Bytes)
  | integer (value : Int32)
  /-- The bits of the number, so that every kind of NaN is kept. -/
  | float (bits : UInt32)
  | long (value : Int64)
  | double (bits : UInt64)
  | classRef (name : Index)
  | string (text : Index)
  | fieldRef (owner symbol : Index)
  | methodRef (owner symbol : Index)
  | interfaceMethodRef (owner symbol : Index)
  | nameAndType (name descriptor : Index)
  | methodHandle (kind : UInt8) (reference : Index)
  | methodType (descriptor : Index)
  | dynamic (bootstrap symbol : Index)
  | invokeDynamic (bootstrap symbol : Index)
  | moduleRef (name : Index)
  | packageRef (name : Index)
deriving DecidableEq, Repr

namespace Constant

/-- The byte that announces the constant in a class file; an unusable slot has none. -/
def tag? : Constant → Option UInt8
  | unusable => none
  | utf8 _ | rawUtf8 _ => some 1
  | integer _ => some 3
  | float _ => some 4
  | long _ => some 5
  | double _ => some 6
  | classRef _ => some 7
  | string _ => some 8
  | fieldRef .. => some 9
  | methodRef .. => some 10
  | interfaceMethodRef .. => some 11
  | nameAndType .. => some 12
  | methodHandle .. => some 15
  | methodType _ => some 16
  | dynamic .. => some 17
  | invokeDynamic .. => some 18
  | moduleRef _ => some 19
  | packageRef _ => some 20

/-- A long or double, which takes two slots. -/
def isWide : Constant → Bool
  | long _ | double _ => true
  | _ => false

/-- The slots that the constant takes. -/
def slots (constant : Constant) : List Constant :=
  if constant.isWide then [constant, unusable] else [constant]

end Constant

inductive ReferenceKind
  | field
  | method
  | interfaceMethod
deriving DecidableEq, Repr

/-- What a field or method reference says. -/
structure MemberReference where
  kind : ReferenceKind
  owner : String
  name : String
  descriptor : String
deriving DecidableEq, Repr

structure ConstantPool where
  entries : Array Constant
  /-- The slot of every class entry behind the name index it had when it was appended. -/
  classes : Array (Index × Index)
deriving DecidableEq, Repr

namespace ConstantPool

/-- The class entries, each as its name index and its slot. -/
def classesOf (entries : List Constant) : List (Index × Index) :=
  entries.zipIdx.filterMap fun (entry, slot) =>
    match entry with
    | .classRef name => some (name, UInt16.ofNat slot)
    | _ => none

def ofEntries (entries : List Constant) : ConstantPool :=
  ⟨entries.toArray, (classesOf entries).toArray⟩

/-- Slot 0 alone. -/
def empty : ConstantPool := ofEntries [.unusable]

/-- The number of slots as a class file states it. -/
def count (pool : ConstantPool) : UInt16 := UInt16.ofNat pool.entries.size

def lookup (pool : ConstantPool) (index : Index) : Except Fault Constant :=
  match pool.entries[index.toNat]? with
  | none | some .unusable => .error (.badIndex index .usable)
  | some entry => .ok entry

def utf8 (pool : ConstantPool) (index : Index) : Except Fault String := do
  match ← pool.lookup index with
  | .utf8 text => return text
  | _ => throw (.badIndex index .utf8)

/-- Whether the slot holds exactly this text. -/
def hasText (pool : ConstantPool) (index : Index) (text : String) : Bool :=
  match pool.utf8 index with
  | .ok found => found == text
  | .error _ => false

/-- The name that a class entry refers to: an internal name, or a descriptor for an array class. -/
def className (pool : ConstantPool) (index : Index) : Except Fault String := do
  match ← pool.lookup index with
  | .classRef name => pool.utf8 name
  | _ => throw (.badIndex index .classEntry)

def nameAndType (pool : ConstantPool) (index : Index) : Except Fault (String × String) := do
  match ← pool.lookup index with
  | .nameAndType name descriptor => return (← pool.utf8 name, ← pool.utf8 descriptor)
  | _ => throw (.badIndex index .nameAndType)

/-- The owner is resolved before the name and the descriptor. -/
def memberOf (pool : ConstantPool) (kind : ReferenceKind) (owner symbol : Index) :
    Except Fault MemberReference := do
  let ownerName ← pool.className owner
  let (name, descriptor) ← pool.nameAndType symbol
  return ⟨kind, ownerName, name, descriptor⟩

def memberReference (pool : ConstantPool) (index : Index) : Except Fault MemberReference := do
  match ← pool.lookup index with
  | .fieldRef owner symbol => pool.memberOf .field owner symbol
  | .methodRef owner symbol => pool.memberOf .method owner symbol
  | .interfaceMethodRef owner symbol => pool.memberOf .interfaceMethod owner symbol
  | _ => throw (.badIndex index .memberReference)

/-- The first slot that holds `constant`. -/
def slotOf? (pool : ConstantPool) (constant : Constant) : Option Index :=
  (pool.entries.findIdx? (· == constant)).map UInt16.ofNat

/-- The slot of the first class entry that had this name index when it was appended. -/
def classSlot? (pool : ConstantPool) (name : Index) : Option Index :=
  (pool.classes.find? (·.1 == name)).map Prod.snd

end ConstantPool

end JarRemap
