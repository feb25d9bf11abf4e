/-!
# Blanks, words and lines

Blank characters are those with the Unicode property White_Space. Lines end at a line feed, and a
carriage return right before it belongs to the line end; the text after the last line feed is a
line of its own unless it is empty.
-/

namespace JarRemap.Text

/-- The characters with the Unicode property White_Space. -/
def isBlank (c : Char) : Bool :=
  let code := c.toNat
  (0x9 ≤ code && code ≤ 0xD) || code == 0x20 || code == 0x85 || code == 0xA0 || code == 0x1680 ||
    (0x2000 ≤ code && code ≤ 0x200A) || code == 0x2028 || code == 0x2029 || code == 0x202F ||
    code == 0x205F || code == 0x3000

def trimEnd (chars : List Char) : List Char := (chars.reverse.dropWhile isBlank).reverse

/-- Without the blanks at both ends. -/
def trim (chars : List Char) : List Char := trimEnd (chars.dropWhile isBlank)

/-- Continues behind a piece that was begun and the pieces before it, all latest first. -/
def splitOnto (separates : Char → Bool) (piece : List Char) (pieces : List (List Char)) :
    List Char → List (List Char)
  | [] => (piece.reverse :: pieces).reverse
  | c :: rest =>
    if separates c then splitOnto separates [] (piece.reverse :: pieces) rest
    else splitOnto separates (c :: piece) pieces rest

/-- Splits at every character that satisfies `separates`; there is always at least one piece. -/
def splitWhen (separates : Char → Bool) (chars : List Char) : List (List Char) :=
  splitOnto separates [] [] chars

/-- The longest runs without a blank. -/
def words (chars : List Char) : List (List Char) :=
  (splitWhen isBlank chars).filter (!·.isEmpty)

/-- A line that was ended by a line feed, without the carriage return before it. -/
def ended (line : List Char) : List Char :=
  if line.getLast? = some '\r' then line.dropLast else line

/-- The last piece is not ended by a line feed, and is no line if it is empty. -/
def linesOf (pieces : List (List Char)) : List (List Char) :=
  pieces.dropLast.map ended ++ pieces.getLast?.toList.filter (!·.isEmpty)

def lines (text : String) : List String :=
  (linesOf (splitWhen (· == '\n') text.toList)).map String.ofList

/-- What stands before the first `mark`, and what stands after it if there is one. -/
def cut (mark : Char) (chars : List Char) : List Char × Option (List Char) :=
  match chars.dropWhile (· != mark) with
  | [] => (chars, none)
  | _ :: after => (chars.takeWhile (· != mark), some after)

/-- What stands before and after the last `mark`, if there is one. -/
def cutLast? (mark : Char) (chars : List Char) : Option (List Char × List Char) :=
  match cut mark chars.reverse with
  | (_, none) => none
  | (after, some before) => some (before.reverse, after.reverse)

theorem append_of_cut {mark : Char} {chars before after : List Char}
    (found : cut mark chars = (before, some after)) : chars = before ++ mark :: after := by
  simp only [cut] at found
  split at found
  · simp at found
  · next c rest behind =>
    simp only [Prod.mk.injEq, Option.some.injEq] at found
    obtain ⟨rfl, rfl⟩ := found
    have stopped := List.head?_dropWhile_not (· != mark) chars
    simp only [behind, List.head?_cons, bne_eq_false_iff_eq] at stopped
    subst stopped
    rw [← behind, List.takeWhile_append_dropWhile]

theorem append_of_cutLast? {mark : Char} {chars before after : List Char}
    (found : cutLast? mark chars = some (before, after)) : chars = before ++ mark :: after := by
  simp only [cutLast?] at found
  split at found
  · simp at found
  · next behind front cutting =>
    simp only [Option.some.injEq, Prod.mk.injEq] at found
    obtain ⟨rfl, rfl⟩ := found
    have whole := congrArg List.reverse (append_of_cut cutting)
    simpa using whole

/-- What follows `start` in a text that begins with it. -/
def after? : List Char → List Char → Option (List Char)
  | [], chars => some chars
  | _ :: _, [] => none
  | c :: start, d :: rest => if c = d then after? start rest else none

theorem after?_eq_some_iff (start chars rest : List Char) :
    after? start chars = some rest ↔ chars = start ++ rest := by
  induction start generalizing chars with
  | nil => simp [after?]
  | cons c start ih =>
    cases chars with
    | nil => simp [after?]
    | cons d chars =>
      rw [after?]
      split
      next same => simp [ih, same]
      next other => simpa using fun same => absurd same.symm other

/-- What stands before `ending` in a text that ends with it. -/
def before? (ending chars : List Char) : Option (List Char) :=
  (after? ending.reverse chars.reverse).map List.reverse

end JarRemap.Text
