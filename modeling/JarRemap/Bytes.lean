import JarRemap.Text.Hex

/-!
# Bytes

Class files are read and written as lists of bytes. Every number in them is big-endian: the
most significant byte comes first.
-/

namespace JarRemap

abbrev Bytes := List UInt8

namespace Bytes

def ofUInt16 (value : UInt16) : Bytes :=
  [(value >>> 8).toUInt8, value.toUInt8]

def ofUInt32 (value : UInt32) : Bytes :=
  [(value >>> 24).toUInt8, (value >>> 16).toUInt8, (value >>> 8).toUInt8, value.toUInt8]

def ofUInt64 (value : UInt64) : Bytes :=
  ofUInt32 (value >>> 32).toUInt32 ++ ofUInt32 value.toUInt32

def toUInt16 (high low : UInt8) : UInt16 :=
  high.toUInt16 <<< 8 ||| low.toUInt16

def toUInt32 (a b c d : UInt8) : UInt32 :=
  a.toUInt32 <<< 24 ||| b.toUInt32 <<< 16 ||| c.toUInt32 <<< 8 ||| d.toUInt32

def toUInt64 (high low : UInt32) : UInt64 :=
  high.toUInt64 <<< 32 ||| low.toUInt64

/-- Two lower-case hexadecimal digits for each byte. -/
def hex (bytes : Bytes) : String :=
  String.ofList (bytes.flatMap fun byte =>
    [Nat.digitChar (byte.toNat / 16), Nat.digitChar (byte.toNat % 16)])

/-- The bytes of pairs of digits, behind those found so far, latest first. -/
def hexOnto (found : Bytes) : List Char → Option Bytes
  | [] => some found.reverse
  | [_] => none
  | high :: low :: rest =>
    match Text.Hex.digitsOnto 0 [high, low] with
    | some value => hexOnto (UInt8.ofNat value :: found) rest
    | none => none

/-- Reads two digits for each byte. -/
def ofHex? (source : String) : Option Bytes := hexOnto [] source.toList

end Bytes

end JarRemap
