import JarRemap.Archive.Deflate

/-!
# Inflating

Reads compressed texts. Bytes that end too early are told apart from those that are no compressed
text at all.
-/

namespace JarRemap.Inflate

open Deflate

/-- What is left of the byte that was begun, and the bytes behind it. -/
structure Source where
  held : Nat
  /-- How many bits are held. -/
  count : Nat
  rest : Bytes
deriving DecidableEq, Repr

/-- Why bytes are no compressed text. -/
inductive Flaw
  /-- The bytes end before the text does. -/
  | incomplete
  | corrupt
deriving DecidableEq, Repr

abbrev Scan := StateT Source (Except Flaw)

def bit : Scan Nat := fun source =>
  if source.count = 0 then
    match source.rest with
    | byte :: rest => .ok (byte.toNat % 2, ⟨byte.toNat / 2, 7, rest⟩)
    | [] => .error .incomplete
  else .ok (source.held % 2, ⟨source.held / 2, source.count - 1, source.rest⟩)

/-- What has to be there unless the bytes are corrupt. -/
def need {α : Type} : Option α → Scan α
  | some value => return value
  | none => throw .corrupt

def ensure (condition : Bool) : Scan Unit := if condition then return () else throw .corrupt

/-- A number of this many bits. -/
def number : Nat → Scan Nat
  | 0 => return 0
  | width + 1 => do
    let low ← bit
    let high ← number width
    return low + 2 * high

/-- Leaves out what is left of the byte that was begun. -/
def align : Scan Unit := modify fun source => { source with held := 0, count := 0 }

def bytes (count : Nat) : Scan Bytes := fun source =>
  let taken := source.rest.take count
  if taken.length = count then .ok (taken, { source with rest := source.rest.drop count })
  else .error .incomplete

/-! ## Codes -/

/-- Reads on in a word. Words of the next length begin with the number `first`, and `earlier`
symbols have shorter words. In a sparse code the first bit shows whether there is such a word. -/
def symbolFrom (code : Code) (word first earlier : Nat) : List Nat → Scan Nat
  | [] => throw .corrupt
  | count :: longer => do
    let word := 2 * word + (← bit)
    if word < first + count then need code.symbols[earlier + (word - first)]?
    else if code.symbols.size ≤ 1 then throw .corrupt
    else symbolFrom code word (2 * (first + count)) (earlier + count) longer

def symbol (code : Code) : Scan Nat := symbolFrom code 0 0 0 code.counts

/-- The codes of a block: for literals and lengths, and for distances. -/
structure Codes where
  literals : Code
  distances : Code
deriving DecidableEq, Repr

namespace Codes

def fixed : Codes where
  literals := .ofLengths fixedLiterals
  distances := .ofLengths fixedDistances

/-- Reads lengths of code words behind those found so far, latest first, until there are `total` of
them. Some symbols stand for a run of equal lengths. -/
def lengthsOnto (code : Code) (total : Nat) : Nat → List Nat → Scan (List Nat)
  | 0, _ => throw .corrupt
  | rounds + 1, found => do
    if total ≤ found.length then
      ensure (found.length = total)
      return found.reverse
    else
      match ← symbol code with
      | 16 =>
        let previous ← need found.head?
        lengthsOnto code total rounds (List.replicate (3 + (← number 2)) previous ++ found)
      | 17 => lengthsOnto code total rounds (List.replicate (3 + (← number 3)) 0 ++ found)
      | 18 => lengthsOnto code total rounds (List.replicate (11 + (← number 7)) 0 ++ found)
      | length => lengthsOnto code total rounds (length :: found)

/-- The codes that a block brings with it. -/
def read : Scan Codes := do
  let literals := 257 + (← number 5)
  let distances := 1 + (← number 5)
  let given := 4 + (← number 4)
  ensure (literals ≤ maxLiterals && distances ≤ maxDistances)
  let widths ← (List.range given).mapM fun _ => number 3
  let table := lengthOrder.zip widths
  let code ← need <| Code.complete? <|
    (List.range lengthOrder.length).map fun symbol => (table.lookup symbol).getD 0
  let total := literals + distances
  let lengths ← lengthsOnto code total (total + 1) []
  let literalCode ← need (Code.ofBlock? (lengths.take literals))
  let distanceCode ← need (Code.ofBlock? (lengths.drop literals))
  return ⟨literalCode, distanceCode⟩

end Codes

/-! ## Blocks -/

def spreadNumber (step symbol : Nat) : Scan Nat := do
  let (base, width) := spread step symbol
  return base + (← number width)

def length (symbol : Nat) : Scan Nat := do
  if symbol < longest then
    return shortestRepeat + (← spreadNumber lengthStep (symbol - firstLength))
  else if symbol = longest then return longestRepeat
  else throw .corrupt

def distance (symbol : Nat) : Scan Nat := do
  ensure (symbol < maxDistances)
  return 1 + (← spreadNumber distanceStep symbol)

/-- Repeats bytes that were written `distance` bytes before. Zeros stand before the first byte. -/
def repeated (distance : Nat) : Nat → Array UInt8 → Array UInt8
  | 0, written => written
  | count + 1, written =>
    let byte := if distance ≤ written.size then written.getD (written.size - distance) 0 else 0
    repeated distance count (written.push byte)

/-- Reads symbols up to the end of the block. Every symbol takes a bit, which bounds the rounds. -/
def symbols (codes : Codes) : Nat → Array UInt8 → Scan (Array UInt8)
  | 0, _ => throw .corrupt
  | rounds + 1, written => do
    let next ← symbol codes.literals
    if next < endOfBlock then symbols codes rounds (written.push (UInt8.ofNat next))
    else if next = endOfBlock then return written
    else
      let count ← length next
      let back ← distance (← symbol codes.distances)
      symbols codes rounds (repeated back count written)

/-- Bytes as they are, behind their number and its complement. -/
def plain (written : Array UInt8) : Scan (Array UInt8) := do
  align
  let count ← number 16
  let complement ← number 16
  ensure (count + complement = 65535)
  return written ++ (← bytes count)

/-- Reads blocks up to the one that is marked as the last. -/
def blocks (bits : Nat) : Nat → Array UInt8 → Scan (Array UInt8)
  | 0, _ => throw .corrupt
  | rounds + 1, written => do
    let isLast ← bit
    let written ← match ← number 2 with
      | 0 => plain written
      | 1 => symbols .fixed bits written
      | 2 => symbols (← Codes.read) bits written
      | _ => throw .corrupt
    if isLast = 1 then return written else blocks bits rounds written

/-- The bytes that a compressed text stands for. What follows its last block does not matter. -/
def inflate (data : Bytes) : Except Flaw Bytes :=
  let bits := 8 * data.length + 1
  (blocks bits bits #[]).run' ⟨0, 0, data⟩ |>.map Array.toList

end JarRemap.Inflate
