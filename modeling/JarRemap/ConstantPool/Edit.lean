import JarRemap.ConstantPool

/-!
# Edits of a constant pool

A pool only ever grows. To rename something, the new texts are appended unless they are there
already, and then one entry is pointed at them, so no slot that bytecode may refer to moves or
changes its meaning for anybody else.

An edit that fails leaves behind what it had appended before it failed.
-/

namespace JarRemap

/-- An edit of a pool that may fail and still leaves a pool behind. -/
abbrev PoolEdit := ExceptT Fault (StateM ConstantPool)

namespace ConstantPool

def maxSlots : Nat := 65535

/-- The class entries after a constant was put into `slot`. -/
def classesWith (classes : Array (Index × Index)) (slot : Index) :
    Constant → Array (Index × Index)
  | .classRef name => classes.push (name, slot)
  | _ => classes

/-- The pool with the constant in the next free slot. -/
def appended (pool : ConstantPool) (constant : Constant) : ConstantPool :=
  let classes := classesWith pool.classes (UInt16.ofNat pool.entries.size) constant
  ⟨pool.entries ++ constant.slots, classes⟩

/-- Appends a constant and returns its slot. -/
def push (constant : Constant) : PoolEdit Index := ExceptT.mk fun pool =>
  if pool.entries.size + constant.slots.length > maxSlots then (.error .poolFull, pool)
  else (.ok (UInt16.ofNat pool.entries.size), pool.appended constant)

/-- The first slot that holds the constant, which is appended if there is none. -/
def intern (constant : Constant) : PoolEdit Index := do
  match (← get).slotOf? constant with
  | some slot => return slot
  | none => push constant

def utf8Index (text : String) : PoolEdit Index := intern (.utf8 text)

def classIndex (name : String) : PoolEdit Index := do
  let nameIndex ← utf8Index name
  match (← get).classSlot? nameIndex with
  | some slot => return slot
  | none => push (.classRef nameIndex)

def nameAndTypeIndex (name descriptor : String) : PoolEdit Index := do
  let nameIndex ← utf8Index name
  let descriptorIndex ← utf8Index descriptor
  intern (.nameAndType nameIndex descriptorIndex)

/-- Replaces the entry at `index` by what `change` makes of it. -/
def repoint (index : Index) (expected : Expectation) (change : Constant → Option Constant) :
    PoolEdit Unit := ExceptT.mk fun pool =>
  match pool.entries[index.toNat]?.bind change with
  | some entry => (.ok (), { pool with entries := pool.entries.setIfInBounds index.toNat entry })
  | none => (.error (.badIndex index expected), pool)

/-- A class entry with another name. -/
def withName (name : Index) : Constant → Option Constant
  | .classRef _ => some (.classRef name)
  | _ => none

/-- Everything that refers to the class entry at `index` sees the new name. -/
def renameClass (index : Index) (name : String) : PoolEdit Unit := do
  let nameIndex ← utf8Index name
  repoint index .classEntry (withName nameIndex)

/-- The constant with another name and descriptor, if it is one that has them. -/
def withSymbol (symbol : Index) : Constant → Option Constant
  | .fieldRef owner _ => some (.fieldRef owner symbol)
  | .methodRef owner _ => some (.methodRef owner symbol)
  | .interfaceMethodRef owner _ => some (.interfaceMethodRef owner symbol)
  | .dynamic bootstrap _ => some (.dynamic bootstrap symbol)
  | .invokeDynamic bootstrap _ => some (.invokeDynamic bootstrap symbol)
  | _ => none

/-- Gives a member reference or a dynamic constant another name and descriptor. The entry with the
old ones stays as it is, since references with other owners may use it. -/
def renameMember (index : Index) (name descriptor : String) : PoolEdit Unit := do
  let symbol ← nameAndTypeIndex name descriptor
  repoint index .memberReference (withSymbol symbol)

/-- A method type with another descriptor. -/
def withDescriptor (descriptor : Index) : Constant → Option Constant
  | .methodType _ => some (.methodType descriptor)
  | _ => none

def retypeMethodType (index : Index) (descriptor : String) : PoolEdit Unit := do
  let descriptorIndex ← utf8Index descriptor
  repoint index .methodType (withDescriptor descriptorIndex)

end ConstantPool

end JarRemap
