import JarRemap.Archive.Deflate.Token

/-!
# Lengths of words

Chooses for every symbol how long its word is, from how often the symbol is written: the two rarest
symbols become the two ends of one branch, which then stands for a symbol as often as both together,
until all symbols hang on one tree. Words that would be too long are shortened, which makes others
longer.
-/

namespace JarRemap.Deflate

inductive Tree
  | leaf
  | node (left right : Tree)
deriving DecidableEq, Repr

namespace Tree

/-- How far below `depth` each leaf is. -/
def depths (depth : Nat) : Tree → List Nat
  | leaf => [depth]
  | node left right => left.depths (depth + 1) ++ right.depths (depth + 1)

end Tree

/-- A tree and how often one of its symbols is written. -/
structure Branch where
  weight : Nat
  tree : Tree
deriving DecidableEq, Repr

namespace Branch

/-- The lightest branch of two queues, and what is left of them. Of equal ones it is that of the
first queue. -/
def lightest? : List Branch → List Branch → Option (Branch × List Branch × List Branch)
  | leaf :: leaves, made :: rest =>
    if made.weight < leaf.weight then some (made, leaf :: leaves, rest)
    else some (leaf, leaves, made :: rest)
  | leaf :: leaves, [] => some (leaf, leaves, [])
  | [], made :: rest => some (made, [], rest)
  | [], [] => none

/-- Joins the two lightest branches until one is left. The single symbols come first, and branches
that are made are at least as heavy as those made before. -/
def joined? : Nat → List Branch → List Branch → Option Tree
  | 0, _, _ => none
  | rounds + 1, leaves, made =>
    match lightest? leaves made with
    | none => none
    | some (first, leaves, made) =>
      match lightest? leaves made with
      | none => some first.tree
      | some (second, leaves, made) =>
        joined? rounds leaves
          (made ++ [⟨first.weight + second.weight, .node first.tree second.tree⟩])

end Branch

/-! ## Limits -/

/-- For every length from the greatest one down, how many words have it. Longer ones count among the
longest, and no word is empty. -/
def lengthCounts (limit : Nat) (depths : List Nat) : List Nat :=
  let lengths := depths.map fun depth => min limit (max 1 depth)
  (List.range limit).map fun shorter => lengths.count (limit - shorter)

/-- Makes two words out of the longest one that has room behind it. -/
def split : List Nat → List Nat
  | count :: 0 :: rest => count :: split (0 :: rest)
  | count :: (shorter + 1) :: rest => (count + 2) :: shorter :: rest
  | counts => counts

/-- Takes one of the longest words away and splits a shorter one, so many times. -/
def relieved : Nat → List Nat → List Nat
  | 0, counts => counts
  | excess + 1, longest :: rest => relieved excess (split ((longest - 1) :: rest))
  | _ + 1, [] => []

/-- How many words of the greatest length are too many. -/
def excess (limit : Nat) (counts : List Nat) : Nat :=
  counts.zipIdx.foldr (fun (count, shorter) rest => (count <<< shorter) + rest) 0 - (1 <<< limit)

/-- The lengths from the least one up. -/
def ascending (limit : Nat) (counts : List Nat) : List Nat :=
  (counts.zipIdx.map fun (count, shorter) => List.replicate count (limit - shorter)).reverse.flatten

/-- The lengths of words, up to a limit, for symbols that are written so many times. -/
def lengthsFor (limit : Nat) (counts : List Nat) : List Nat :=
  let rarestFirst := (counts.zipIdx.filter (·.1 ≠ 0)).mergeSort fun a b => a.1 ≤ b.1
  let leaves := rarestFirst.map fun (count, _) => Branch.mk count .leaf
  match Branch.joined? leaves.length leaves [] with
  | none => List.replicate counts.length 0
  | some tree =>
    let natural := lengthCounts limit (tree.depths 0)
    let lengths := ascending limit (relieved (excess limit natural) natural)
    let chosen := (rarestFirst.reverse.map Prod.snd).zip lengths
    (chosen.foldl (fun found (symbol, length) => found.setIfInBounds symbol length)
      (Array.replicate counts.length 0)).toList

/-! ## Words -/

/-- A number with its bits in the other order, in front of what was turned around before. -/
def turned : Nat → Nat → Nat → Nat
  | 0, _, done => done
  | width + 1, value, done => turned width (value / 2) (2 * done + value % 2)

/-- Gives words to symbols in the order of the words. The one before has `width` bits and `next` is
the number behind it. -/
def wordsOnto (lengths : Array Nat) : List Nat → Nat → Nat → Array Field → Array Field
  | [], _, _, words => words
  | symbol :: rest, width, next, words =>
    let length := lengths.getD symbol 0
    let word := next <<< (length - width)
    wordsOnto lengths rest length (word + 1)
      (words.setIfInBounds symbol ⟨turned length word 0, length⟩)

/-- The words that symbols have in the code for these lengths. -/
def words (lengths : List Nat) : Array Field :=
  wordsOnto lengths.toArray (Code.ofLengths lengths).symbols.toList 0 0
    (.replicate lengths.length .none)

end JarRemap.Deflate
