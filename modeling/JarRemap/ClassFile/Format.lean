import JarRemap.ClassFile
import JarRemap.ConstantPool.Format

/-!
# The bytes of a class file

A class file is its magic number, its version, the constant pool, and then a tail of plain numbers,
lists and attributes. Every byte must be used, and every name that the class and its members refer
to must be there.
-/

namespace JarRemap

open Cursor

namespace Member

def format : Format Member :=
  (Format.uint16.pair (Format.uint16.pair (Format.uint16.pair Attribute.listFormat))).imap
    (fun (access, name, descriptor, attributes) => ⟨⟨access⟩, name, descriptor, attributes⟩)
    (fun member => (member.access.bits, member.name, member.descriptor, member.attributes))

def listFormat : Format (List Member) := Format.counted "members" format

end Member

namespace ClassFile

def magic : UInt32 := 0xCAFEBABE

/-- What follows the constant pool. -/
structure Tail where
  access : AccessFlags
  thisClass : Index
  superClass : Index
  interfaces : List Index
  fields : List Member
  methods : List Member
  attributes : List Attribute
deriving DecidableEq, Repr

def Tail.format : Format Tail :=
  (Format.uint16.pair (Format.uint16.pair (Format.uint16.pair
    ((Format.counted "interfaces" Format.uint16).pair (Member.listFormat.pair
      (Member.listFormat.pair Attribute.listFormat)))))).imap
    (fun (access, thisClass, superClass, interfaces, fields, methods, attributes) =>
      ⟨⟨access⟩, thisClass, superClass, interfaces, fields, methods, attributes⟩)
    (fun tail => (tail.access.bits, tail.thisClass, tail.superClass, tail.interfaces, tail.fields,
      tail.methods, tail.attributes))

def tail (file : ClassFile) : Tail :=
  ⟨file.access, file.thisClass, file.superClass, file.interfaces, file.fields, file.methods,
    file.attributes⟩

def ofParts (minor major : UInt16) (pool : ConstantPool) (tail : Tail) : ClassFile :=
  ⟨minor, major, pool, tail.access, tail.thisClass, tail.superClass, tail.interfaces, tail.fields,
    tail.methods, tail.attributes⟩

def readMagic : FaultReader Unit := do
  let found ← orFault uint32
  if found = magic then return () else throw (.badMagic found)

def readParts : FaultReader ClassFile := do
  readMagic
  let minor ← orFault uint16
  let major ← orFault uint16
  let pool ← ConstantPool.read
  let tail ← orFault Tail.format.read
  return ofParts minor major pool tail

/-- The names that every later step relies on can be read from the pool. -/
def checkNames (file : ClassFile) : Except Fault Unit := do
  discard file.name
  discard file.superName
  discard file.interfaceNames
  discard (file.symbols .field)
  discard (file.symbols .method)

def decode (bytes : Bytes) : Except Fault ClassFile := do
  let (file, cursor) ← readParts (Cursor.start bytes)
  if !cursor.rest.isEmpty then throw (.trailing cursor.rest.length)
  file.checkNames
  return file

def write (file : ClassFile) : Written := do
  let pool ← file.pool.write
  let tail ← Tail.format.write file.tail
  return Bytes.ofUInt32 magic ++ Bytes.ofUInt16 file.minor ++ Bytes.ofUInt16 file.major ++ pool ++
    tail

def encode (file : ClassFile) : Except Fault Bytes := file.write.mapError Fault.ofOversize

end ClassFile

end JarRemap
