import JarRemap.Bytes

/-!
# Little-endian numbers

The number formats of archives and digests: the least significant byte comes first.
-/

namespace JarRemap.Bytes

/-- The lowest `width` bytes of a number. -/
def ofNatLittle : Nat → Nat → Bytes
  | 0, _ => []
  | width + 1, value => UInt8.ofNat value :: ofNatLittle width (value / 256)

def toNatLittle (bytes : Bytes) : Nat :=
  bytes.foldr (fun byte value => byte.toNat + 256 * value) 0

end JarRemap.Bytes
