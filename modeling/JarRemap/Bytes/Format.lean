import JarRemap.Bytes

/-!
# Formats

A format is one shape of bytes: a reader and a writer that belong together. Formats are put
together from numbers, byte strings, sequences and counted lists, so the reader and the writer of
a larger structure never drift apart.

Reading can only run out of bytes. Writing can only fail because a count does not fit the field
that has to hold it.
-/

namespace JarRemap

/-- A position in a byte string: how much was read and what is left. -/
structure Cursor where
  offset : Nat
  rest : Bytes
deriving DecidableEq, Repr

/-- A read that wanted more bytes than were left. -/
structure Shortage where
  offset : Nat
  needed : Nat
deriving DecidableEq, Repr

abbrev Reader := StateT Cursor (Except Shortage)

inductive Excess
  /-- More than 65535 items. -/
  | items (count : Nat)
  /-- More than 255 method parameters. -/
  | parameters (count : Nat)
  /-- An attribute body or instruction list of 4 GiB or more. -/
  | bytes
deriving DecidableEq, Repr

/-- A count or length, of the thing called `name`, that does not fit its field. -/
structure Oversize where
  name : String
  excess : Excess
deriving DecidableEq, Repr

abbrev Written := Except Oversize Bytes

namespace Cursor

def start (bytes : Bytes) : Cursor := ⟨0, bytes⟩

/-- Takes exactly `count` bytes. -/
def take (count : Nat) : Reader Bytes := fun cursor =>
  let taken := cursor.rest.take count
  if taken.length = count then
    .ok (taken, ⟨cursor.offset + count, cursor.rest.drop count⟩)
  else
    .error ⟨cursor.offset, count⟩

def byte : Reader UInt8 := fun cursor =>
  match cursor.rest with
  | a :: rest => .ok (a, ⟨cursor.offset + 1, rest⟩)
  | _ => .error ⟨cursor.offset, 1⟩

def uint16 : Reader UInt16 := fun cursor =>
  match cursor.rest with
  | a :: b :: rest => .ok (Bytes.toUInt16 a b, ⟨cursor.offset + 2, rest⟩)
  | _ => .error ⟨cursor.offset, 2⟩

def uint32 : Reader UInt32 := fun cursor =>
  match cursor.rest with
  | a :: b :: c :: d :: rest => .ok (Bytes.toUInt32 a b c d, ⟨cursor.offset + 4, rest⟩)
  | _ => .error ⟨cursor.offset, 4⟩

/-- Read as two halves, so a shortage is reported at the half that is missing. -/
def uint64 : Reader UInt64 := do
  let high ← uint32
  let low ← uint32
  return Bytes.toUInt64 high low

/-- Reads `count` items into the ones found so far, latest first. -/
def repeatOnto {α : Type} (item : Reader α) : Nat → List α → Reader (List α)
  | 0, found => fun cursor => .ok (found.reverse, cursor)
  | count + 1, found => fun cursor =>
    match item cursor with
    | .ok (value, next) => repeatOnto item count (value :: found) next
    | .error shortage => .error shortage

def times {α : Type} (count : Nat) (item : Reader α) : Reader (List α) :=
  repeatOnto item count []

end Cursor

/-- The reader and the writer of one shape of bytes. -/
structure Format (α : Type) where
  read : Reader α
  write : α → Written

namespace Format

def byte : Format UInt8 := ⟨Cursor.byte, fun value => .ok [value]⟩

def uint16 : Format UInt16 := ⟨Cursor.uint16, fun value => .ok (Bytes.ofUInt16 value)⟩

def uint32 : Format UInt32 := ⟨Cursor.uint32, fun value => .ok (Bytes.ofUInt32 value)⟩

def uint64 : Format UInt64 := ⟨Cursor.uint64, fun value => .ok (Bytes.ofUInt64 value)⟩

/-- The same bytes seen as another type. -/
def imap {α β : Type} (format : Format α) (into : α → β) (back : β → α) : Format β :=
  ⟨into <$> format.read, fun value => format.write (back value)⟩

/-- One shape after another. -/
def pair {α β : Type} (first : Format α) (second : Format β) : Format (α × β) where
  read := do
    let a ← first.read
    let b ← second.read
    return (a, b)
  write := fun (a, b) => do
    let left ← first.write a
    let right ← second.write b
    return left ++ right

/-- All bytes of the values, in order. -/
def writeAll {α : Type} (format : Format α) (values : List α) : Written :=
  List.flatten <$> values.mapM format.write

/-- A two-byte count, or the complaint that there are too many items of `name`. -/
def count16 (name : String) (count : Nat) : Except Oversize UInt16 :=
  if count < 65536 then .ok (UInt16.ofNat count) else .error ⟨name, .items count⟩

/-- A list behind its two-byte count. -/
def counted {α : Type} (name : String) (item : Format α) : Format (List α) where
  read := do
    let count ← Cursor.uint16
    Cursor.times count.toNat item.read
  write := fun values => do
    let count ← count16 name values.length
    let body ← item.writeAll values
    return Bytes.ofUInt16 count ++ body

/-- A list behind its one-byte count. -/
def countedByte {α : Type} (name : String) (item : Format α) : Format (List α) where
  read := do
    let count ← Cursor.byte
    Cursor.times count.toNat item.read
  write := fun values =>
    if values.length < 256 then do
      let body ← item.writeAll values
      return UInt8.ofNat values.length :: body
    else
      .error ⟨name, .parameters values.length⟩

/-- Bytes behind their four-byte length. -/
def block (name : String) : Format Bytes where
  read := do
    let length ← Cursor.uint32
    Cursor.take length.toNat
  write := fun body =>
    if body.length < 4294967296 then
      .ok (Bytes.ofUInt32 (UInt32.ofNat body.length) ++ body)
    else
      .error ⟨name, .bytes⟩

/-- Bytes behind a two-byte count of the records of `width` bytes that they hold. Bytes beyond the
last full record are written too, but do not count as a record. -/
def records (name : String) (width : Nat) : Format Bytes where
  read := do
    let count ← Cursor.uint16
    Cursor.take (count.toNat * width)
  write := fun body => do
    let count ← count16 name (body.length / width)
    return Bytes.ofUInt16 count ++ body

end Format

end JarRemap
