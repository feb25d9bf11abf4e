import JarRemap.Bytes

/-!
# UTF-8 with faults

Bytes that spell characters are read as these, and the rest is replaced: the longest run of bytes
that could have begun a character becomes one replacement character, and so does any stray byte.
-/

namespace JarRemap.Text.Utf8

/-- Stands where something could not be read. -/
def replacement : Char := Char.ofNat 0xFFFD

/-- A character of which some bytes were read. -/
structure Begun where
  /-- The bits of the character so far. -/
  bits : Nat
  /-- How many bytes are missing. -/
  missing : Nat
  /-- The least and the greatest byte that can come next. -/
  least : Nat
  greatest : Nat
deriving DecidableEq, Repr

/-- The character that a first byte begins, if several bytes are needed for it. The second byte is
restricted where it would make a longer spelling than needed, a surrogate, or too great a number. -/
def begun? (first : Nat) : Option Begun :=
  if 0xC2 ≤ first && first < 0xE0 then some ⟨first - 0xC0, 1, 0x80, 0xBF⟩
  else if 0xE0 ≤ first && first < 0xF0 then
    some ⟨first - 0xE0, 2, if first = 0xE0 then 0xA0 else 0x80, if first = 0xED then 0x9F else 0xBF⟩
  else if 0xF0 ≤ first && first < 0xF5 then
    some ⟨first - 0xF0, 3, if first = 0xF0 then 0x90 else 0x80, if first = 0xF4 then 0x8F else 0xBF⟩
  else none

/-- The text so far, latest first, and the character that was begun behind it. -/
structure Reading where
  found : List Char
  begun : Option Begun
deriving DecidableEq, Repr

namespace Reading

/-- Reads a byte that no character goes on with. -/
def first (found : List Char) (byte : UInt8) : Reading :=
  if byte < 0x80 then ⟨Char.ofNat byte.toNat :: found, none⟩
  else
    match begun? byte.toNat with
    | some begun => ⟨found, some begun⟩
    | none => ⟨replacement :: found, none⟩

def next (reading : Reading) (byte : UInt8) : Reading :=
  match reading.begun with
  | none => first reading.found byte
  | some begun =>
    if begun.least ≤ byte.toNat && byte.toNat ≤ begun.greatest then
      let bits := begun.bits * 0x40 + byte.toNat % 0x40
      if begun.missing = 1 then ⟨Char.ofNat bits :: reading.found, none⟩
      else ⟨reading.found, some ⟨bits, begun.missing - 1, 0x80, 0xBF⟩⟩
    else first (replacement :: reading.found) byte

def text (reading : Reading) : String :=
  let found := match reading.begun with
    | some _ => replacement :: reading.found
    | none => reading.found
  String.ofList found.reverse

end Reading

def decodeLossy (bytes : Bytes) : String := (bytes.foldl Reading.next ⟨[], none⟩).text

end JarRemap.Text.Utf8
