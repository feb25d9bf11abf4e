import JarRemap.Bytes.Little

/-!
# Files with places

An archive is read here and there, so its file is kept as an array in which any byte can be reached.
-/

namespace JarRemap.Container

abbrev Image := Array UInt8

namespace Image

/-- The bytes from `start` on, as many as there are up to `length`. -/
def bytesFrom (image : Image) (start length : Nat) : Bytes :=
  (image.extract start (min image.size (start + length))).toList

def stretch? (image : Image) (start length : Nat) : Option Bytes :=
  if start + length ≤ image.size then some (image.bytesFrom start length) else none

def number? (image : Image) (start width : Nat) : Option Nat :=
  (image.stretch? start width).map Bytes.toNatLittle

def hasMark (image : Image) (start : Nat) (mark : Bytes) : Bool :=
  image.stretch? start mark.length == some mark

end Image

end JarRemap.Container
