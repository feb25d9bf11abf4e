import JarRemap.ConstantPool
import JarRemap.Text.ModifiedUtf8

/-!
# The pool in a class file

A pool is written as a two-byte slot count and then its constants in order, each behind its tag.
Unusable slots take no bytes: a reader knows where they are from the constants before them.
-/

namespace JarRemap

/-- A read that may also meet bytes that mean nothing. -/
abbrev FaultReader := StateT Cursor (Except Fault)

namespace Cursor

def orFault {α : Type} (reader : Reader α) : FaultReader α := fun cursor =>
  (reader cursor).mapError Fault.truncated

end Cursor

namespace Constant

open Cursor

/-- Bytes that hold an unpaired surrogate have no text and are kept as they are. -/
def ofUtf8Bytes (bytes : Bytes) : Except Fault Constant :=
  match Text.ModifiedUtf8.decodeLenient bytes with
  | .ok (some text) => .ok (.utf8 text)
  | .ok none => .ok (.rawUtf8 bytes)
  | .error offset => .error (.badText offset)

def readUtf8 : FaultReader Constant := do
  let length ← orFault uint16
  let bytes ← orFault (take length.toNat)
  liftM (ofUtf8Bytes bytes)

/-- Two indices, as most references hold. -/
def readPair (build : Index → Index → Constant) : FaultReader Constant := orFault do
  let first ← uint16
  let second ← uint16
  return build first second

/-- What follows the tag of the constant for the slot `index`. -/
def readBody (tag : UInt8) (index : Index) : FaultReader Constant :=
  match tag with
  | 1 => readUtf8
  | 3 => orFault ((fun bits => .integer bits.toInt32) <$> uint32)
  | 4 => orFault (.float <$> uint32)
  | 5 => orFault ((fun bits => .long bits.toInt64) <$> uint64)
  | 6 => orFault (.double <$> uint64)
  | 7 => orFault (.classRef <$> uint16)
  | 8 => orFault (.string <$> uint16)
  | 9 => readPair .fieldRef
  | 10 => readPair .methodRef
  | 11 => readPair .interfaceMethodRef
  | 12 => readPair .nameAndType
  | 15 => orFault do
      let kind ← byte
      let reference ← uint16
      return .methodHandle kind reference
  | 16 => orFault (.methodType <$> uint16)
  | 17 => readPair .dynamic
  | 18 => readPair .invokeDynamic
  | 19 => orFault (.moduleRef <$> uint16)
  | 20 => orFault (.packageRef <$> uint16)
  | _ => throw (.unknownTag tag index)

def read (index : Index) : FaultReader Constant := do
  let tag ← orFault byte
  readBody tag index

/-- Encoded text behind its length. -/
def writeText (bytes : Bytes) : Written := do
  let length ← Format.count16 "Utf8 constant" bytes.length
  return Bytes.ofUInt16 length ++ bytes

/-- What follows the tag. -/
def writeBody : Constant → Written
  | unusable => .ok []
  | utf8 text => writeText (Text.ModifiedUtf8.encode text)
  | rawUtf8 bytes => writeText bytes
  | integer value => .ok (Bytes.ofUInt32 value.toUInt32)
  | float bits => .ok (Bytes.ofUInt32 bits)
  | long value => .ok (Bytes.ofUInt64 value.toUInt64)
  | double bits => .ok (Bytes.ofUInt64 bits)
  | classRef i | string i | methodType i | moduleRef i | packageRef i => .ok (Bytes.ofUInt16 i)
  | fieldRef i j | methodRef i j | interfaceMethodRef i j | nameAndType i j | dynamic i j
  | invokeDynamic i j => .ok (Bytes.ofUInt16 i ++ Bytes.ofUInt16 j)
  | methodHandle kind reference => .ok (kind :: Bytes.ofUInt16 reference)

def write (constant : Constant) : Written :=
  match constant.tag? with
  | none => .ok []
  | some tag => (tag :: ·) <$> constant.writeBody

end Constant

namespace ConstantPool

open Cursor

/-- Reads constants behind `entries` until at least `count` slots are taken. Every constant takes a
slot, so `fuel` rounds are enough if `entries` lacks no more than that. -/
def readOnto (count : Nat) : Nat → Array Constant → FaultReader (Array Constant)
  | 0, entries => fun cursor => .ok (entries, cursor)
  | fuel + 1, entries => fun cursor =>
    if entries.size < count then
      match Constant.read (UInt16.ofNat entries.size) cursor with
      | .ok (constant, next) => readOnto count fuel (entries ++ constant.slots) next
      | .error fault => .error fault
    else .ok (entries, cursor)

/-- A wide constant in the last slot would overrun the stated count, and so would slot 0 of a pool
that states no slot at all. -/
def read : FaultReader ConstantPool := do
  let count ← orFault uint16
  let entries ← readOnto count.toNat count.toNat #[.unusable]
  if entries.size = count.toNat then return ofEntries entries.toList
  else throw (.badIndex (count - if count = 0 then 0 else 1) .withinCount)

def write (pool : ConstantPool) : Written := do
  let constants ← pool.entries.toList.mapM Constant.write
  return Bytes.ofUInt16 pool.count ++ constants.flatten

end ConstantPool

end JarRemap
