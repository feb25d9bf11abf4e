import JarRemap.Bytes.Format
import JarRemap.Text.Hex

/-!
# Faults

What can be wrong with a class file, with a reference inside it, or with an edit of it. Every cause
has one constructor, and `Fault.message` gives its wording.
-/

namespace JarRemap

/-- What a constant pool index should have led to. -/
inductive Expectation
  | usable
  | utf8
  | classEntry
  | nameAndType
  | memberReference
  | methodType
  | withinCount
deriving DecidableEq, Repr

def Expectation.text : Expectation → String
  | usable => "usable entry"
  | utf8 => "Utf8"
  | classEntry => "Class"
  | nameAndType => "NameAndType"
  | memberReference => "member reference"
  | methodType => "MethodType"
  | withinCount => "constant within declared pool count"

/-- What is wrong with the body of an attribute. -/
inductive BodyFault
  | truncated (shortage : Shortage)
  | unread (count : Nat)
  | oversize (excess : Excess)
deriving DecidableEq, Repr

inductive Fault
  | truncated (shortage : Shortage)
  | badMagic (found : UInt32)
  | unknownTag (tag : UInt8) (index : UInt16)
  | badIndex (index : UInt16) (expected : Expectation)
  | poolFull
  | badText (offset : Nat)
  | badDescriptor (text : String)
  | badAttribute (name : String) (problem : BodyFault)
  | trailing (count : Nat)
deriving DecidableEq, Repr

def Shortage.message (shortage : Shortage) : String :=
  s!"unexpected end of class file at offset {shortage.offset} (needed {shortage.needed} more bytes)"

def BodyFault.message (name : String) : BodyFault → String
  | truncated shortage => shortage.message
  | unread count => s!"{count} unread bytes"
  | oversize (.items count) => s!"{count} items exceed the u2 limit"
  | oversize (.parameters count) => s!"{count} parameters exceed the u1 limit"
  | oversize .bytes => if name = "Code" then "code longer than 4 GiB" else "body longer than 4 GiB"

def Fault.message : Fault → String
  | truncated shortage => shortage.message
  | badMagic found => "invalid class file magic 0x" ++ Text.Hex.ofNatWide 8 found.toNat
  | unknownTag tag index => s!"unsupported constant pool tag {tag} at index {index}"
  | badIndex index expected => s!"invalid constant pool index {index}: expected {expected.text}"
  | poolFull => "constant pool overflow: more than 65535 entries"
  | badText offset => s!"malformed modified UTF-8 at byte {offset}"
  | badDescriptor text => s!"malformed descriptor: {text}"
  | badAttribute name problem => s!"malformed {name} attribute: {problem.message name}"
  | trailing count => s!"{count} trailing bytes after class file"

def Fault.ofOversize (oversize : Oversize) : Fault :=
  .badAttribute oversize.name (.oversize oversize.excess)

namespace Format

/-- Reads a whole attribute body called `name`; nothing may be left. -/
def parse {α : Type} (format : Format α) (name : String) (body : Bytes) : Except Fault α :=
  match format.read (Cursor.start body) with
  | .error shortage => .error (.badAttribute name (.truncated shortage))
  | .ok (value, cursor) =>
    if cursor.rest.isEmpty then .ok value
    else .error (.badAttribute name (.unread cursor.rest.length))

def encode {α : Type} (format : Format α) (value : α) : Except Fault Bytes :=
  (format.write value).mapError Fault.ofOversize

end Format

end JarRemap
