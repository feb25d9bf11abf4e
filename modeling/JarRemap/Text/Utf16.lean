import JarRemap.Bytes

/-!
# UTF-16

Text as sixteen-bit code units. A character outside the basic plane takes two units, a high
surrogate and a low one; a surrogate without its partner stands for no character.
-/

namespace JarRemap.Text.Utf16

def isHigh (unit : UInt16) : Bool := 0xD800 ≤ unit && unit < 0xDC00

def isLow (unit : UInt16) : Bool := 0xDC00 ≤ unit && unit < 0xE000

/-- The character that a high and a low surrogate stand for. -/
def joined (high low : UInt16) : Char :=
  Char.ofNat (0x10000 + (high.toNat - 0xD800) * 0x400 + (low.toNat - 0xDC00))

def ofChar (c : Char) : List UInt16 :=
  if c.toNat < 0x10000 then [UInt16.ofNat c.toNat]
  else
    let beyond := c.toNat - 0x10000
    [UInt16.ofNat (0xD800 + beyond / 0x400), UInt16.ofNat (0xDC00 + beyond % 0x400)]

def encode (text : String) : List UInt16 := text.toList.flatMap ofChar

/-- Continues behind the characters found so far, latest first. -/
def decodeOnto : List Char → List UInt16 → Option (List Char)
  | found, [] => some found.reverse
  | found, unit :: rest =>
    if isHigh unit then
      match rest with
      | low :: rest => if isLow low then decodeOnto (joined unit low :: found) rest else none
      | [] => none
    else if isLow unit then none
    else decodeOnto (Char.ofNat unit.toNat :: found) rest

/-- The text of the units, or `none` if a surrogate stands alone. -/
def decode (units : List UInt16) : Option String := (decodeOnto [] units).map String.ofList

end JarRemap.Text.Utf16
