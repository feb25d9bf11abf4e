import JarRemap.Archive.Deflate.Write
import JarRemap.ArchiveEntry
import JarRemap.Bytes.Little

/-!
# The bytes of an archive

Archives are written as zip files: for every entry a header and the compressed data, then a
directory that repeats the headers with their places, and a record that says where the directory is.
Entries that are directories have no data.
-/

namespace JarRemap.Container

/-! ## Checksums -/

/-- One step of the division by the polynomial of CRC-32. -/
def checksumBit (state : UInt32) : UInt32 :=
  if state &&& 1 = 1 then state >>> 1 ^^^ 0xEDB88320 else state >>> 1

def checksumByte (state : UInt32) (byte : UInt8) : UInt32 :=
  Nat.repeat checksumBit 8 (state ^^^ byte.toUInt32)

/-- The CRC-32 of the bytes. -/
def checksum (data : Bytes) : UInt32 := ~~~data.foldl checksumByte 0xFFFFFFFF

/-! ## Headers -/

def entryMark : Bytes := [0x50, 0x4B, 3, 4]
def directoryMark : Bytes := [0x50, 0x4B, 1, 2]
def endMark : Bytes := [0x50, 0x4B, 5, 6]

/-- Numbers of the given widths in bytes, one after another. -/
def fields (values : List (Nat × Nat)) : Bytes :=
  values.flatMap fun (width, value) => Bytes.ofNatLittle width value

def timeField (stamp : Timestamp) : Nat :=
  stamp.hour * 2048 + stamp.minute * 32 + stamp.second / 2

def dateField (stamp : Timestamp) : Nat :=
  (stamp.year - 1980) * 512 + stamp.month * 32 + stamp.day

/-- The version of the format that a reader has to know. -/
def versionNeeded : Nat := 20

/-- Made under a system whose files have permissions. -/
def madeBy : Nat := 0x032E

/-- Says that a name is UTF-8; plain ASCII needs no such hint. -/
def nameFlag (name : Bytes) : Nat := if name.all (· < 0x80) then 0 else 0x0800

/-- An entry and its data as they stand in the archive. -/
structure PackedEntry where
  entry : ArchiveEntry
  stored : Bytes
deriving DecidableEq, Repr

namespace PackedEntry

def ofEntry (entry : ArchiveEntry) : PackedEntry :=
  ⟨entry, if entry.isDirectory then [] else Deflate.deflate entry.data⟩

def data (packed : PackedEntry) : Bytes :=
  if packed.entry.isDirectory then [] else packed.entry.data

/-- Data are compressed; where there are none, there is nothing to be done. -/
def method (packed : PackedEntry) : Nat := if packed.entry.isDirectory then 0 else 8

/-- File type and permissions. -/
def attributesField (packed : PackedEntry) : Nat :=
  (if packed.entry.isDirectory then 0o040755 else 0o100644) * 65536

def name (packed : PackedEntry) : Bytes := packed.entry.storedName.toUTF8.toList

/-- What both headers of an entry say, from the version on up to the length of the name. -/
def commonFields (packed : PackedEntry) : Bytes :=
  fields [(2, versionNeeded), (2, nameFlag packed.name), (2, packed.method),
    (2, timeField packed.entry.modified), (2, dateField packed.entry.modified),
    (4, (checksum packed.data).toNat), (4, packed.stored.length), (4, packed.data.length),
    (2, packed.name.length)]

def record (packed : PackedEntry) : Bytes :=
  entryMark ++ packed.commonFields ++ fields [(2, 0)] ++ packed.name ++ packed.stored

def directoryRecord (offset : Nat) (packed : PackedEntry) : Bytes :=
  directoryMark ++ fields [(2, madeBy)] ++ packed.commonFields ++
    fields [(2, 0), (2, 0), (2, 0), (2, 0), (4, packed.attributesField), (4, offset)] ++ packed.name

end PackedEntry

/-- The records of entries that are written from `offset` on, and their directory records. -/
def records (offset : Nat) : List PackedEntry → List (Bytes × Bytes)
  | [] => []
  | packed :: rest =>
    let record := packed.record
    (record, packed.directoryRecord offset) :: records (offset + record.length) rest

def encode (entries : List ArchiveEntry) : Bytes :=
  let written := records 0 (entries.map .ofEntry)
  let data := written.flatMap Prod.fst
  let listing := written.flatMap Prod.snd
  data ++ listing ++ endMark ++
    fields [(2, 0), (2, 0), (2, entries.length), (2, entries.length), (4, listing.length),
      (4, data.length), (2, 0)]

end JarRemap.Container
