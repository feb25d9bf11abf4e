import JarRemap.Bytes

/-!
# Compressed texts

The compression of archives. A compressed text is a series of blocks of literal bytes and of
references to what was written before, both spelled in code words of varying length. Numbers are
read from the low end of each byte, and every code word from its high end.

A code is told by the lengths of its words alone: shorter words come first, words of one length
stand in the order of their symbols, and each word is the number behind the one before it.
-/

namespace JarRemap.Deflate

/-! ## Codes -/

structure Code where
  /-- How many words there are of each length, from length one on. -/
  counts : List Nat
  /-- The symbols in the order of their words. -/
  symbols : Array Nat
deriving DecidableEq, Repr

namespace Code

def maxLength : Nat := 15

/-- The code in which the symbols have words of these lengths. Length zero is for a symbol that does
not occur. -/
def ofLengths (lengths : List Nat) : Code where
  counts := (List.range maxLength).map fun length => lengths.count (length + 1)
  symbols := ((List.range maxLength).flatMap fun length =>
    (lengths.zipIdx.filter (·.1 == length + 1)).map Prod.snd).toArray

/-- How many words of the greatest length the words of these lengths take the place of. -/
def weight (lengths : List Nat) : Nat :=
  lengths.foldr (fun length rest => (if length = 0 then 0 else 1 <<< (maxLength - length)) + rest) 0

/-- The code for the lengths, if it leaves no word over. -/
def complete? (lengths : List Nat) : Option Code :=
  if weight lengths = 1 <<< maxLength then some (ofLengths lengths) else none

/-- A code without words, or with one word of one bit: the codes that may leave words over. -/
def sparse (lengths : List Nat) : Bool :=
  let used := lengths.filter (· ≠ 0)
  used = [] || used = [1]

/-- The code for the lengths, if it is complete or sparse. -/
def ofBlock? (lengths : List Nat) : Option Code :=
  if sparse lengths then some (ofLengths lengths) else complete? lengths

end Code

/-- The lengths of the words that blocks without codes of their own use for literals and lengths. -/
def fixedLiterals : List Nat :=
  List.replicate 144 8 ++ List.replicate 112 9 ++ List.replicate 24 7 ++ List.replicate 8 8

/-- The lengths of their words for distances. -/
def fixedDistances : List Nat := List.replicate 32 5

/-- The symbols for lengths of code words, in the order in which their own lengths are given. -/
def lengthOrder : List Nat := [16, 17, 18, 0, 8, 7, 9, 6, 10, 5, 11, 4, 12, 3, 13, 2, 14, 1, 15]

/-- The greatest numbers of symbols that a block may give words. -/
def maxLiterals : Nat := 286
def maxDistances : Nat := 30

/-! ## Symbols -/

def endOfBlock : Nat := 256

/-- The first of the symbols for lengths. -/
def firstLength : Nat := 257

/-- The symbol for the greatest length, which has no bits of its own. -/
def longest : Nat := 285

/-- The lengths that a reference can have. -/
def shortestRepeat : Nat := 3
def longestRepeat : Nat := 258

/-- How many symbols for lengths, and for distances, have numbers of one width behind them. -/
def lengthStep : Nat := 4
def distanceStep : Nat := 2

/-- The smallest number that a symbol stands for, and how many bits say how far the number is from
it. The bits get more by one with every `step` symbols. -/
def spread (step symbol : Nat) : Nat × Nat :=
  if symbol < step then (symbol, 0)
  else
    let width := symbol / step - 1
    ((step + symbol % step) <<< width, width)

/-- The symbol that stands for a number. -/
def spreadSymbol (step number : Nat) : Nat :=
  if number < step then number
  else
    let width := (number / step).log2
    width * step + (number >>> width)

end JarRemap.Deflate
