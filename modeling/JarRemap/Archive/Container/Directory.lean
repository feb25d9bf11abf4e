import JarRemap.Archive.Container
import JarRemap.Archive.Container.Image
import JarRemap.Text.CodePage
import JarRemap.Text.Utf8

/-!
# The directory of an archive

An archive is read from its end: the record there says where the directory is, and the directory
says where the entries are. Bytes in front of what was written as an archive do not matter; all
offsets are counted from behind them.

Fields of four bytes are too small for large archives. A number that does not fit leaves its field
full, and stands in a wide record in front of the record at the end, or in an extra field of its
header.
-/

namespace JarRemap.Container

def locatorMark : Bytes := [0x50, 0x4B, 6, 7]
def wideEndMark : Bytes := [0x50, 0x4B, 6, 6]

/-- What a field of two bytes holds if its number does not fit. -/
def full16 : Nat := 0xFFFF

/-- What a field of four bytes holds if its number does not fit. -/
def full32 : Nat := 0xFFFFFFFF

/-- Offsets in a file are below this. -/
def offsetLimit : Nat := 1 <<< 63

/-! ## The record at the end -/

/-- The size of the record without the comment that may follow it. -/
def endSize : Nat := 22

def maxComment : Nat := 65535

/-- The last place at which the record can be. -/
def endOffset? (image : Image) : Option Nat :=
  if image.size < endSize then none
  else
    let last := image.size - endSize
    ((List.range (min last maxComment + 1)).map (last - ·)).find? fun offset =>
      image.hasMark offset endMark

structure EndRecord where
  /-- Where the record itself is. -/
  offset : Nat
  disk : Nat
  directoryDisk : Nat
  /-- The number of entries on this disk. -/
  count : Nat
  /-- The number of entries on all disks. -/
  total : Nat
  /-- The size of the directory. -/
  size : Nat
  /-- Where the directory is. -/
  start : Nat
  commentLength : Nat
deriving DecidableEq, Repr

namespace EndRecord

def read? (image : Image) : Option EndRecord := do
  let offset ← endOffset? image
  let field (start width : Nat) := image.number? (offset + start) width
  let commentLength ← field 20 2
  guard (offset + endSize + commentLength ≤ image.size)
  return ⟨offset, ← field 4 2, ← field 6 2, ← field 8 2, ← field 10 2, ← field 12 4, ← field 16 4,
    commentLength⟩

/-- Some number did not fit. -/
def isFull (record : EndRecord) : Bool :=
  record.disk == full16 || record.directoryDisk == full16 || record.count == full16 ||
    record.total == full16 || record.size == full32 || record.start == full32

end EndRecord

/-! ## The wide record -/

/-- Says where the wide record is. -/
structure Locator where
  disk : Nat
  offset : Nat
deriving DecidableEq, Repr

namespace Locator

def size : Nat := 20

/-- A locator stands right in front of a record whose comment goes on to the end of the file. -/
def read? (image : Image) (record : EndRecord) : Option Locator := do
  let behind := size + endSize + record.commentLength
  guard (behind ≤ image.size)
  let offset := image.size - behind
  guard (image.hasMark offset locatorMark)
  return ⟨← image.number? (offset + 4) 4, ← image.number? (offset + 8) 8⟩

end Locator

/-- The size of the wide record, and of the locator at the least four bytes behind it. -/
def wideEndSize : Nat := 60

/-- The first place of the wide record from where the locator says it is. Bytes in front of what was
written as an archive move it on. -/
def wideEndOffset? (image : Image) (record : EndRecord) (locator : Locator) : Option Nat := do
  guard (wideEndSize ≤ record.offset)
  let places := record.offset - wideEndSize + 1 - locator.offset
  ((List.range places).map (locator.offset + ·)).find? fun offset =>
    image.hasMark offset wideEndMark

/-! ## Where the directory is -/

structure DirectoryPlace where
  /-- The number of bytes in front of what was written as an archive. -/
  base : Nat
  start : Nat
  count : Nat
deriving DecidableEq, Repr

namespace DirectoryPlace

/-- The directory ends right in front of the record. -/
def ofRecord? (record : EndRecord) : Option DirectoryPlace := do
  guard (record.size + record.start ≤ record.offset)
  let base := record.offset - record.size - record.start
  return ⟨base, base + record.start, record.count⟩

def ofLocator? (image : Image) (record : EndRecord) (locator : Locator) :
    Option DirectoryPlace := do
  guard (record.isFull || record.disk == locator.disk)
  let offset ← wideEndOffset? image record locator
  let field (start width : Nat) := image.number? (offset + start) width
  guard ((← field 16 4) = (← field 20 4))
  let base := offset - locator.offset
  let start := (← field 48 8) + base
  guard (start < offsetLimit)
  return ⟨base, start, ← field 32 8⟩

/-- An archive on several disks has no directory here. -/
def find? (image : Image) : Option DirectoryPlace := do
  let record ← EndRecord.read? image
  guard (record.isFull || record.disk == record.directoryDisk)
  match Locator.read? image record with
  | none => ofRecord? record
  | some locator => ofLocator? image record locator

end DirectoryPlace

/-! ## Headers -/

def timestamp (time date : Nat) : Timestamp where
  year := 1980 + date / 512
  month := date / 32 % 16
  day := date % 32
  hour := time / 2048
  minute := time / 32 % 64
  second := time % 32 * 2

/-- What the directory says about an entry. -/
structure Header where
  name : String
  flags : Nat
  method : Nat
  modified : Timestamp
  checksum : Nat
  /-- The size of the data as they are in the archive. -/
  storedSize : Nat
  /-- The size that the data are said to have. -/
  size : Nat
  offset : Nat
  /-- An extra field says how the data are sealed with a password. -/
  isSealed : Bool
deriving DecidableEq, Repr

namespace Header

/-- The data are encrypted. -/
def isEncrypted (header : Header) : Bool := header.flags.testBit 0

/-- A wide number from the front of the bytes in place of one that did not fit, and the bytes behind
it. -/
def widened? (value : Nat) (bytes : Bytes) : Option (Nat × Bytes) :=
  if value = full32 then
    if 8 ≤ bytes.length then some (Bytes.toNatLittle (bytes.take 8), bytes.drop 8) else none
  else some (value, bytes)

/-- How many numbers did not fit. -/
def fullCount (header : Header) : Nat :=
  [header.size, header.storedSize, header.offset].count full32

/-- Takes the numbers that did not fit from the front of the bytes, until these run short. -/
def widen (header : Header) (bytes : Bytes) : Header :=
  match widened? header.size bytes with
  | none => header
  | some (size, bytes) =>
    let header := { header with size := size }
    match widened? header.storedSize bytes with
    | none => header
    | some (storedSize, bytes) =>
      let header := { header with storedSize := storedSize }
      match widened? header.offset bytes with
      | none => header
      | some (offset, _) => { header with offset := offset }

/-- The kind of the extra field for wide numbers. -/
def wideField : Nat := 0x0001

/-- The kind of the extra field for sealed data. -/
def sealField : Nat := 0x9901

/-- The method of sealed data, whose extra field names their own method. -/
def sealMethod : Nat := 99

def sealLength : Nat := 7

/-- Who defined the seal. -/
def sealVendor : Nat := 0x4541

/-- Takes over what the extra field for sealed data says; a field that runs short says nothing. -/
def unseal? (header : Header) : Bytes → Option Header
  | v₀ :: v₁ :: w₀ :: w₁ :: strength :: m₀ :: m₁ :: _ => do
    guard (Bytes.toNatLittle [w₀, w₁] = sealVendor)
    guard (Bytes.toNatLittle [v₀, v₁] ∈ [1, 2])
    guard (strength ∈ [1, 2, 3])
    return { header with method := Bytes.toNatLittle [m₀, m₁], isSealed := true }
  | _ => some header

/-- Takes over what the extra fields say. Each has a kind and a length, and those that run short are
no fields. -/
def extend? (header : Header) : Bytes → Option Header
  | k₀ :: k₁ :: l₀ :: l₁ :: rest =>
    let kind := Bytes.toNatLittle [k₀, k₁]
    let length := Bytes.toNatLittle [l₀, l₁]
    if kind = wideField then
      (header.widen rest).extend? (rest.drop (max length (8 * header.fullCount)))
    else if kind = sealField then
      if length = sealLength then
        (header.unseal? rest).bind fun header => header.extend? (rest.drop (2 * sealLength))
      else none
    else header.extend? (rest.drop length)
  | _ => some header
termination_by fields => fields.length
decreasing_by all_goals simp only [List.length_cons, List.length_drop]; omega

/-- The size of a header without the texts that follow it. -/
def fixedSize : Nat := 46

/-- The bit of the flags that says that a name is UTF-8. -/
def utf8Bit : Nat := 11

/-- The header at an offset, and where the next one is. -/
def read? (image : Image) (base offset : Nat) : Option (Header × Nat) := do
  guard (image.hasMark offset directoryMark)
  let field (start width : Nat) := image.number? (offset + start) width
  let flags ← field 8 2
  let texts := offset + fixedSize
  let nameLength ← field 28 2
  let extraLength ← field 30 2
  let commentLength ← field 32 2
  let name ← image.stretch? texts nameLength
  let extra ← image.stretch? (texts + nameLength) extraLength
  let next := texts + nameLength + extraLength + commentLength
  guard (next ≤ image.size)
  let header : Header := {
    name := if flags.testBit utf8Bit then Text.Utf8.decodeLossy name else Text.CodePage.decode name
    flags := flags
    method := ← field 10 2
    modified := timestamp (← field 12 2) (← field 14 2)
    checksum := ← field 16 4
    storedSize := ← field 20 4
    size := ← field 24 4
    offset := ← field 42 4
    isSealed := false }
  let header ← header.extend? extra
  guard (header.method ≠ sealMethod || header.isSealed)
  guard (base + header.offset < 1 <<< 64)
  return ({ header with offset := base + header.offset }, next)

/-- Reads this many headers behind those found so far, latest first. -/
def allOnto? (image : Image) (base : Nat) (found : List Header) :
    Nat → Nat → Option (List Header)
  | 0, _ => some found.reverse
  | count + 1, offset =>
    match read? image base offset with
    | some (header, next) => allOnto? image base (header :: found) count next
    | none => none

end Header

/-- The headers of all entries, with offsets in the file itself. -/
def headers? (image : Image) : Option (List Header) := do
  let place ← DirectoryPlace.find? image
  Header.allOnto? image place.base [] place.count place.start

end JarRemap.Container
