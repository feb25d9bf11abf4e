import JarRemap.Archive.Container.Directory
import JarRemap.Archive.Inflate

/-!
# Reading archives

An archive can be opened if its directory can be read. What is wrong with an entry itself shows when
that entry is read, and the others can be read all the same.

Data are stored as they are or compressed, and have to fit their checksum. The size that they are
said to have does not matter.
-/

namespace JarRemap.Container

/-- What can be wrong with an entry. -/
inductive EntryFault
  /-- The data are not where they should be, or in a form that is not read here. -/
  | unreadable
  /-- The data should be a compressed text but are not. -/
  | packed (flaw : Inflate.Flaw)
  | wrongChecksum
deriving DecidableEq, Repr

/-- The size of the record in front of an entry's data, without the texts at its end. -/
def entrySize : Nat := 30

/-- The data of an entry as they are in the archive. They may end with the file. -/
def storedData? (image : Image) (header : Header) : Option Bytes := do
  guard (image.hasMark header.offset entryMark)
  let nameLength ← image.number? (header.offset + 26) 2
  let extraLength ← image.number? (header.offset + 28) 2
  return image.bytesFrom (header.offset + entrySize + nameLength + extraLength) header.storedSize

/-- How data can be stored. -/
inductive Packing
  | plain
  | deflated
deriving DecidableEq, Repr

/-- Sealed and encrypted data are in no form that is read here. -/
def Header.packing? (header : Header) : Option Packing :=
  if header.isEncrypted || header.isSealed then none
  else
    match header.method with
    | 0 => some .plain
    | 8 => some .deflated
    | _ => none

def unpack : Packing → Bytes → Except EntryFault Bytes
  | .plain, stored => .ok stored
  | .deflated, stored => (Inflate.inflate stored).mapError .packed

/-- Data that are what the header promises. -/
def verified (header : Header) (data : Bytes) : Except EntryFault Bytes :=
  if (checksum data).toNat = header.checksum then .ok data else .error .wrongChecksum

/-- Reads an entry. A directory has no data, whatever the archive holds for it. -/
def entry (image : Image) (header : Header) : Except EntryFault ArchiveEntry := do
  match storedData? image header, header.packing? with
  | some stored, some packing =>
    if ArchiveEntry.isDirectoryName header.name then
      return ⟨header.name, [], true, header.modified⟩
    else
      let data ← verified header (← unpack packing stored)
      return ⟨header.name, data, false, header.modified⟩
  | _, _ => throw .unreadable

/-- What an archive holds, in the order of its directory. -/
def decode? (file : Bytes) : Option (List (Except EntryFault ArchiveEntry)) := do
  let image := file.toArray
  let headers ← headers? image
  return headers.map (entry image)

end JarRemap.Container
