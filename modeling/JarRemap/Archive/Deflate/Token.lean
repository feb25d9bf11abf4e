import JarRemap.Archive.Deflate

/-!
# Tokens

What a compressed text spells: literal bytes, and references to bytes that were written before.
-/

namespace JarRemap.Deflate

/-- A byte, or as many bytes as `length` says that were written `distance` bytes before. -/
inductive Token
  | literal (byte : UInt8)
  | reference (length distance : Nat)
deriving DecidableEq, Repr

namespace Token

/-- How many bytes the token stands for. -/
def span : Token → Nat
  | literal _ => 1
  | reference length _ => length

end Token

/-- A number of a fixed width in bits. -/
structure Field where
  value : Nat
  width : Nat
deriving DecidableEq, Repr

namespace Field

/-- No bits at all. -/
def none : Field := ⟨0, 0⟩

def totalWidth (fields : List Field) : Nat := fields.foldr (·.width + ·) 0

end Field

/-- A symbol and the number that is written behind its word. -/
structure Sign where
  symbol : Nat
  rest : Field
deriving DecidableEq, Repr

namespace Sign

/-- The sign for a number among symbols of which the first is `first`. -/
def ofNumber (first step number : Nat) : Sign :=
  let symbol := spreadSymbol step number
  let (base, width) := spread step symbol
  ⟨first + symbol, number - base, width⟩

def ofLiteral (byte : UInt8) : Sign := ⟨byte.toNat, .none⟩

def ofLength (length : Nat) : Sign :=
  if length = longestRepeat then ⟨longest, .none⟩
  else ofNumber firstLength lengthStep (length - shortestRepeat)

def ofDistance (distance : Nat) : Sign := ofNumber 0 distanceStep (distance - 1)

end Sign

namespace Token

/-- The sign for a literal or a length. -/
def main : Token → Sign
  | literal byte => .ofLiteral byte
  | reference length _ => .ofLength length

def distance? : Token → Option Sign
  | literal _ => .none
  | reference _ distance => some (.ofDistance distance)

end Token

end JarRemap.Deflate
