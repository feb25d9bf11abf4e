import JarRemap.Bytes.Little

/-!
# SHA3-256

The Keccak permutation on twenty-five words of 64 bits, and the sponge that turns any number of
bytes into thirty-two.
-/

namespace JarRemap.Sha3

/-- The words by column and row: word `x + 5 * y` stands in column `x` and row `y`. -/
abbrev Words := Vector UInt64 25

def column (i : Fin 25) : Nat := i.val % 5

def row (i : Fin 25) : Nat := i.val / 5

/-- The word in a column and a row, both counted around. -/
def Words.at (words : Words) (x y : Nat) : UInt64 :=
  words.get ⟨x % 5 + 5 * (y % 5), by omega⟩

def rotateLeft (word : UInt64) (count : UInt64) : UInt64 :=
  if count = 0 then word else word <<< count ||| word >>> (64 - count)

/-- The exclusive or of a column. -/
def parity (words : Words) (x : Nat) : UInt64 :=
  words.at x 0 ^^^ words.at x 1 ^^^ words.at x 2 ^^^ words.at x 3 ^^^ words.at x 4

/-- Mixes the columns. -/
def theta (words : Words) : Words := .ofFn fun i =>
  words[i] ^^^ parity words (column i + 4) ^^^ rotateLeft (parity words (column i + 1)) 1

/-- How far each word is rotated. -/
def rotations : Vector UInt64 25 :=
  #v[0, 1, 62, 28, 27, 36, 44, 6, 55, 20, 3, 10, 43, 25, 39, 41, 45, 15, 21, 8, 18, 2, 61, 56, 14]

/-- Rotates the words. -/
def rho (words : Words) : Words := .ofFn fun i => rotateLeft words[i] rotations[i]

/-- Moves the words. -/
def pi (words : Words) : Words := .ofFn fun i =>
  words.at (column i + 3 * row i) (column i)

/-- Mixes the rows, the only step that is not linear. -/
def chi (words : Words) : Words := .ofFn fun i =>
  words[i] ^^^ (~~~words.at (column i + 1) (row i) &&& words.at (column i + 2) (row i))

/-- Makes the rounds different from one another. -/
def iota (constant : UInt64) (words : Words) : Words := words.set 0 (words[0] ^^^ constant)

def roundConstants : List UInt64 :=
  [0x0000000000000001, 0x0000000000008082, 0x800000000000808A, 0x8000000080008000,
    0x000000000000808B, 0x0000000080000001, 0x8000000080008081, 0x8000000000008009,
    0x000000000000008A, 0x0000000000000088, 0x0000000080008009, 0x000000008000000A,
    0x000000008000808B, 0x800000000000008B, 0x8000000000008089, 0x8000000000008003,
    0x8000000000008002, 0x8000000000000080, 0x000000000000800A, 0x800000008000000A,
    0x8000000080008081, 0x8000000000008080, 0x0000000080000001, 0x8000000080008008]

def permute (words : Words) : Words :=
  roundConstants.foldl (fun words constant => iota constant (chi (pi (rho (theta words))))) words

/-- The number of bytes that the sponge takes in at a time. -/
def rate : Nat := 136

/-- The message, two marks and the zeros between them, so that full blocks come out. -/
def padded (message : Bytes) : Bytes :=
  let free := rate - message.length % rate
  if free = 1 then message ++ [0x86]
  else message ++ 0x06 :: List.replicate (free - 2) 0 ++ [0x80]

/-- The word that the eight bytes from `start` on spell. -/
def wordAt (block : Array UInt8) (start : Nat) : UInt64 :=
  UInt64.ofNat (Bytes.toNatLittle (block.extract start (start + 8)).toList)

def absorb (words : Words) (block : Array UInt8) : Words :=
  permute (.ofFn fun i => words[i] ^^^ wordAt block (8 * i.val))

/-- Takes in `count` blocks, from the byte `start` on. -/
def absorbAll (message : Array UInt8) : Nat → Nat → Words → Words
  | 0, _, words => words
  | count + 1, start, words =>
    absorbAll message count (start + rate) (absorb words (message.extract start (start + rate)))

/-- The digest of a message, thirty-two bytes. -/
def digest (message : Bytes) : Bytes :=
  let blocks := (padded message).toArray
  let words := absorbAll blocks (blocks.size / rate) 0 (.replicate 25 0)
  (words.toList.take 4).flatMap fun word => Bytes.ofNatLittle 8 word.toNat

end JarRemap.Sha3
