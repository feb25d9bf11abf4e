import JarRemap.Text.Utf16

/-!
# Modified UTF-8

The encoding of the strings of a class file. Every UTF-16 unit is written on its own, in a group
of one, two or three bytes, so a character outside the basic plane takes two groups of three. The
unit zero takes two bytes: no zero byte occurs in encoded text.

Reading is laxer than writing, as it also accepts groups longer than they need to be.
-/

namespace JarRemap.Text.ModifiedUtf8

/-- The bytes of one unit, in the shortest group that holds it. -/
def group (unit : UInt16) : Bytes :=
  if unit = 0 || (0x80 ≤ unit && unit < 0x800) then
    [(0xC0 : UInt8) ||| (unit >>> 6).toUInt8, (0x80 : UInt8) ||| (unit &&& 0x3F).toUInt8]
  else if unit < 0x80 then [unit.toUInt8]
  else
    [(0xE0 : UInt8) ||| (unit >>> 12).toUInt8, (0x80 : UInt8) ||| ((unit >>> 6) &&& 0x3F).toUInt8,
      (0x80 : UInt8) ||| (unit &&& 0x3F).toUInt8]

def encode (text : String) : Bytes := (Utf16.encode text).flatMap group

/-- A byte that carries six more bits of the group it stands in. -/
def continues (byte : UInt8) : Bool := byte &&& 0xC0 == 0x80

def pairUnit (a b : UInt8) : UInt16 :=
  (a &&& 0x1F).toUInt16 <<< 6 ||| (b &&& 0x3F).toUInt16

def tripleUnit (a b c : UInt8) : UInt16 :=
  (a &&& 0x0F).toUInt16 <<< 12 ||| (b &&& 0x3F).toUInt16 <<< 6 ||| (c &&& 0x3F).toUInt16

/-- Reads the bytes from `offset` on, behind the units found so far, latest first. -/
def unitsOnto (offset : Nat) (found : List UInt16) : Bytes → Except Nat (List UInt16)
  | [] => .ok found.reverse
  | a :: rest =>
    if a &&& 0x80 == 0 then
      if a == 0 then .error offset else unitsOnto (offset + 1) (a.toUInt16 :: found) rest
    else if a &&& 0xE0 == 0xC0 then
      match rest with
      | b :: rest =>
        if continues b then unitsOnto (offset + 2) (pairUnit a b :: found) rest
        else .error (offset + 1)
      | [] => .error (offset + 1)
    else if a &&& 0xF0 == 0xE0 then
      match rest with
      | b :: c :: rest =>
        if continues b then
          if continues c then unitsOnto (offset + 3) (tripleUnit a b c :: found) rest
          else .error (offset + 2)
        else .error (offset + 1)
      | [b] => .error (if continues b then offset + 2 else offset + 1)
      | [] => .error (offset + 1)
    else .error offset

/-- The units of the groups, or the offset at which a byte fits no group or is missing. -/
def units (bytes : Bytes) : Except Nat (List UInt16) := unitsOnto 0 [] bytes

/-- A byte that is all of its character. -/
def isPlain (byte : UInt8) : Bool := byte != 0 && byte < 0x80

def plainText (bytes : Bytes) : String :=
  String.ofList (bytes.map fun byte => Char.ofNat byte.toNat)

/-- The text of well-formed bytes, `none` if they hold an unpaired surrogate. -/
def decodeLenient (bytes : Bytes) : Except Nat (Option String) :=
  -- Nearly every text is plain, and is read without a look at its units.
  if bytes.all isPlain then .ok (some (plainText bytes)) else Utf16.decode <$> units bytes

/-- Text without a form as a string is an error here, at the end of the bytes. -/
def decode (bytes : Bytes) : Except Nat String := do
  match ← decodeLenient bytes with
  | some text => return text
  | none => throw bytes.length

end JarRemap.Text.ModifiedUtf8
