import JarRemap.Archive.Deflate.Block

/-!
# Deflating

Writes the blocks of a text. A block has words of its own, or the fixed ones if it is short, or
stands as plain bytes if words would make it no shorter.
-/

namespace JarRemap.Deflate

/-! ## Codes -/

/-- How often each of so many symbols occurs. -/
def tally (size : Nat) (symbols : List Nat) : List Nat :=
  (symbols.foldl (fun counts symbol => counts.modify symbol (· + 1))
    (Array.replicate size 0)).toList

/-- The words that a block uses for its symbols. -/
structure Wording where
  literals : Array Field
  distances : Array Field
deriving DecidableEq, Repr

namespace Wording

/-- The word of a symbol and what stands behind it. -/
def sign (words : Array Field) (sign : Sign) : List Field :=
  [words.getD sign.symbol .none, sign.rest]

def token (wording : Wording) (token : Token) : List Field :=
  Wording.sign wording.literals token.main ++
    token.distance?.toList.flatMap (Wording.sign wording.distances)

/-- The tokens and the mark at their end. -/
def body (wording : Wording) (tokens : List Token) : List Field :=
  tokens.flatMap wording.token ++ [wording.literals.getD endOfBlock .none]

def ofLengths (literals distances : List Nat) : Wording := ⟨words literals, words distances⟩

end Wording

/-- Leaves out what has no word at the end, but not more than to `least`. -/
def trimmed (least : Nat) (lengths : List Nat) : List Nat :=
  lengths.take least ++ ((lengths.drop least).reverse.dropWhile (· == 0)).reverse

/-! ## Lengths of words -/

/-- Equal numbers that follow one another, as one of them and their count. -/
def runs : List Nat → List (Nat × Nat)
  | [] => []
  | value :: rest =>
    match runs rest with
    | (next, count) :: more =>
      if value = next then (value, count + 1) :: more else (value, 1) :: (next, count) :: more
    | [] => [(value, 1)]

/-- A count as a sum of numbers up to the greatest one. -/
def portions (greatest count : Nat) : List Nat :=
  List.replicate (count / greatest) greatest ++ [count % greatest]

/-- One length. -/
def single (length : Nat) : Sign := ⟨length, .none⟩

/-- So many zeros. -/
def zeros (count : Nat) : List Sign :=
  if count < 3 then List.replicate count (single 0)
  else if count ≤ 10 then [⟨17, ⟨count - 3, 3⟩⟩]
  else [⟨18, ⟨count - 11, 7⟩⟩]

/-- The same length so many times more. -/
def again (length count : Nat) : List Sign :=
  if count < 3 then List.replicate count (single length) else [⟨16, ⟨count - 3, 2⟩⟩]

/-- Equal lengths in a row. The first of them is written out unless it is zero. -/
def run : Nat × Nat → List Sign
  | (0, count) => (portions 138 count).flatMap zeros
  | (length, count) => single length :: (portions 6 (count - 1)).flatMap (again length)

/-- Lengths of words, spelled with words themselves. -/
def spelledLengths (lengths : List Nat) : List Sign := (runs lengths).flatMap run

/-- The lengths for the lengths, up to the last that is not zero, and not fewer than four. -/
def ordered (lengths : List Nat) : List Nat :=
  trimmed 4 (lengthOrder.map fun symbol => lengths.getD symbol 0)

/-! ## Blocks -/

/-- What tells how a block is written. -/
def plainForm : Field := ⟨0, 2⟩
def fixedForm : Field := ⟨1, 2⟩
def ownForm : Field := ⟨2, 2⟩

def maxWidth : Nat := 7

/-- The tokens in the fixed words. -/
def fixedFields (tokens : List Token) : List Field :=
  fixedForm :: (Wording.ofLengths fixedLiterals fixedDistances).body tokens

/-- The tokens in words of their own, behind the lengths of these. -/
def ownFields (tokens : List Token) : List Field :=
  let literals := lengthsFor Code.maxLength <|
    tally fixedLiterals.length (endOfBlock :: tokens.map (·.main.symbol))
  let distances := lengthsFor Code.maxLength <|
    tally fixedDistances.length (tokens.filterMap fun token => token.distance?.map Sign.symbol)
  let literalLengths := trimmed firstLength literals
  let distanceLengths := trimmed 1 distances
  let signs := spelledLengths (literalLengths ++ distanceLengths)
  let widths := lengthsFor maxWidth (tally lengthOrder.length (signs.map Sign.symbol))
  let given := ordered widths
  ownForm :: ⟨literalLengths.length - firstLength, 5⟩ :: ⟨distanceLengths.length - 1, 5⟩ ::
    ⟨given.length - 4, 4⟩ :: given.map (⟨·, 3⟩) ++ signs.flatMap (Wording.sign (words widths)) ++
    (Wording.ofLengths literals distances).body tokens

/-- Bytes as they are, behind so many bits. -/
def plainFields (offset : Nat) (data : Bytes) : List Field :=
  plainForm :: ⟨0, (8 - (offset + 2) % 8) % 8⟩ :: ⟨data.length, 16⟩ :: ⟨65535 - data.length, 16⟩ ::
    data.map (⟨·.toNat, 8⟩)

/-- A block with fewer bytes does not get words of its own. -/
def worthWords : Nat := 48

/-- A block with no more bytes is never written as plain bytes. -/
def worthPlain : Nat := 32

namespace Finished

/-- The bytes that a block stands for. -/
def data (text : Array UInt8) (finished : Finished) : Bytes :=
  let block := finished.block
  (text.extract block.start (block.start + block.span)).toList

/-- The block behind so many bits. -/
def fields (text : Array UInt8) (offset : Nat) (finished : Finished) : List Field :=
  let block := finished.block
  let tokens := block.tokens.reverse
  let coded := if block.span < worthWords then fixedFields tokens else ownFields tokens
  let taken := (offset % 8 + Field.totalWidth coded) / 8 + 1
  if block.span > worthPlain && finished.isKept && block.span ≤ taken then
    plainFields offset (finished.data text)
  else coded

/-- The blocks behind so many bits. Each begins with whether it is the last. -/
def allFields (text : Array UInt8) : Nat → List Finished → List Field
  | _, [] => []
  | offset, finished :: rest =>
    let mark : Field := ⟨if rest.isEmpty then 1 else 0, 1⟩
    let fields := mark :: finished.fields text (offset + 1)
    fields ++ allFields text (offset + Field.totalWidth fields) rest

end Finished

/-! ## Bytes -/

/-- Bytes, and bits that do not make up one yet. -/
structure Sink where
  bytes : Array UInt8
  held : Nat
  count : Nat
deriving DecidableEq, Repr

namespace Sink

/-- Moves bits to the bytes, so many bytes of them. -/
def drain : Nat → Sink → Sink
  | 0, sink => sink
  | count + 1, sink =>
    drain count ⟨sink.bytes.push (UInt8.ofNat sink.held), sink.held / 256, sink.count - 8⟩

def put (sink : Sink) (field : Field) : Sink :=
  let count := sink.count + field.width
  drain (count / 8) ⟨sink.bytes, sink.held + (field.value <<< sink.count), count⟩

/-- All bytes. The last one is filled up with zeros. -/
def toBytes (sink : Sink) : Bytes :=
  (if sink.count = 0 then sink.bytes else sink.bytes.push (UInt8.ofNat sink.held)).toList

end Sink

/-- The compressed text. -/
def deflate (data : Bytes) : Bytes :=
  let text := data.toArray
  ((Finished.allFields text 0 (blocks text)).foldl Sink.put ⟨#[], 0, 0⟩).toBytes

end JarRemap.Deflate
