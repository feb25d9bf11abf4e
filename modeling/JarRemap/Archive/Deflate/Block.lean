import JarRemap.Archive.Deflate.Lengths
import JarRemap.Archive.Deflate.Repeats

/-!
# Blocks

Cuts a text into tokens and the tokens into blocks.

A repeat waits until the next place has been looked at: if a longer one begins there, it is left
out, and a literal takes its place.
-/

namespace JarRemap.Deflate

/-- A part of a text as tokens, latest first. -/
structure Block where
  start : Nat
  tokens : List Token
  /-- How many bytes the tokens stand for. -/
  span : Nat
  /-- How many bytes are needed to keep the tokens, without what tells literals from references. -/
  size : Nat
  /-- How many tokens there are. -/
  count : Nat
deriving DecidableEq, Repr

namespace Block

def startingAt (start : Nat) : Block := ⟨start, [], 0, 0, 0⟩

def add (block : Block) (token : Token) : Block :=
  let size := match token with
    | .literal _ => 1
    | .reference _ _ => 3
  { block with
    tokens := token :: block.tokens, span := block.span + token.span
    size := block.size + size, count := block.count + 1 }

/-- How many bytes are needed to keep the tokens. A bit for each tells what it is. -/
def room (block : Block) : Nat := 1 + block.size + block.count / 8

def maxRoom : Nat := 65528

/-- A block that stands for more than this is ended when its tokens save next to nothing. -/
def patience : Nat := 31744

def isFull (block : Block) : Bool :=
  block.room > maxRoom || block.span > patience && block.room * 115 / 128 ≥ block.span

end Block

/-- A block that is finished, and whether all its bytes are still in the window. -/
structure Finished where
  block : Block
  isKept : Bool
deriving DecidableEq, Repr

/-- A repeat this long is taken at once. -/
def longEnough : Nat := 128

/-- What is done at a place: tokens, a repeat that waits, and how many bytes are passed. -/
structure Step where
  tokens : List Token
  waiting : Option Repeat
  stride : Nat
deriving DecidableEq, Repr

namespace Step

/-- Takes a repeat, or lets it wait, behind the tokens for what is before it. -/
def take (tokens : List Token) (found : Repeat) : Step :=
  if found.length ≥ longEnough then
    ⟨tokens ++ [.reference found.length found.distance], none, found.length⟩
  else ⟨tokens, some found, 1⟩

/-- The literal at a place. -/
def literal (text : Array UInt8) (place : Nat) : Token := .literal (text.getD place 0)

/-- The step at a place where a repeat may be waiting that began at the place before. -/
def ofSpot (spot : Spot) : Option Repeat → Step
  | some waiting =>
    match spot.longer? waiting.length with
    | some found => take [literal spot.text (spot.place - 1)] found
    | none => ⟨[.reference waiting.length waiting.distance], none, waiting.length - 1⟩
  | none =>
    match spot.longer? (shortestRepeat - 1) with
    | some found => take [] found
    | none => ⟨[literal spot.text spot.place], none, 1⟩

end Step

/-- The blocks for a text from a place on, in which the first of them has begun. Every step passes a
byte, which bounds the rounds. -/
def blocksFrom (text : Array UInt8) (links : Array Nat) :
    Nat → Nat → Option Repeat → Block → List Finished
  | 0, _, _, block => [⟨block, text.size - block.start ≤ Spot.window⟩]
  | rounds + 1, place, waiting, block =>
    if text.size ≤ place then [⟨block, text.size - block.start ≤ Spot.window⟩]
    else
      let spot := Spot.mk text links place
      let step := Step.ofSpot spot waiting
      let block := step.tokens.foldl Block.add block
      let next := place + step.stride
      if block.isFull then
        let held := min next (Spot.window - spot.ahead + step.stride)
        ⟨block, next - block.start ≤ held⟩ ::
          blocksFrom text links rounds next step.waiting (.startingAt (block.start + block.span))
      else blocksFrom text links rounds next step.waiting block

/-- The blocks for a text. The last one may be empty. -/
def blocks (text : Array UInt8) : List Finished :=
  blocksFrom text (links text) text.size 0 none (.startingAt 0)

end JarRemap.Deflate
