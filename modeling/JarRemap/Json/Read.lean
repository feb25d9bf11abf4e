import JarRemap.Json
import JarRemap.Text.Blank
import JarRemap.Text.Utf16

/-!
# Reading JSON

The strict grammar: one value with nothing after it, no comments, no trailing commas, and only four
kinds of blank characters.

Nesting costs characters, so the length of the text bounds the depth of the descent and the number
of items.
-/

namespace JarRemap.Json

/-- Reads the front of the characters and leaves the rest. -/
abbrev Scan := StateT (List Char) Option

namespace Scan

def isBlank (c : Char) : Bool := c == ' ' || c == '\t' || c == '\n' || c == '\r'

def skipBlanks : Scan Unit := modify (List.dropWhile isBlank)

def fail {α : Type} : Scan α := fun _ => none

def take : Scan Char := fun source =>
  match source with
  | c :: rest => some (c, rest)
  | [] => none

/-- Takes the next character if it satisfies the test. -/
def takeIf (test : Char → Bool) : Scan (List Char) := fun source =>
  match source with
  | c :: rest => if test c then some ([c], rest) else some ([], source)
  | [] => some ([], [])

/-- The longest run of digits, which may not be empty. -/
def digits : Scan (List Char) := fun source =>
  let found := source.takeWhile Char.isDigit
  if found.isEmpty then none else some (found, source.dropWhile Char.isDigit)

def word (letters : String) (value : Json) : Scan Json := fun source =>
  (Text.after? letters.toList source).map fun rest => (value, rest)

/-- Digits without a leading zero, unless the zero is all there is. -/
def whole : Scan (List Char) := do
  match ← digits with
  | '0' :: _ :: _ => fail
  | found => return found

def fraction : Scan (List Char) := do
  match ← takeIf (· == '.') with
  | [] => return []
  | mark => return mark ++ (← digits)

def exponent : Scan (List Char) := do
  match ← takeIf fun c => c == 'e' || c == 'E' with
  | [] => return []
  | mark =>
    let sign ← takeIf fun c => c == '+' || c == '-'
    return mark ++ sign ++ (← digits)

def number : Scan Json := do
  let sign ← takeIf (· == '-')
  let whole ← whole
  let fraction ← fraction
  let exponent ← exponent
  return .number (String.ofList (sign ++ whole ++ fraction ++ exponent))

/-- The character that a letter behind a backslash stands for. -/
def unescaped? (c : Char) : Option Char :=
  if c = '"' then some '"'
  else if c = '\\' then some '\\'
  else if c = '/' then some '/'
  else if c = 'b' then some '\x08'
  else if c = 'f' then some '\x0c'
  else if c = 'n' then some '\n'
  else if c = 'r' then some '\r'
  else if c = 't' then some '\t'
  else none

/-- The UTF-16 units up to the closing quote, behind those found so far, latest first. -/
def unitsOnto (found : List UInt16) : List Char → Option (List UInt16 × List Char)
  | [] => none
  | '"' :: rest => some (found.reverse, rest)
  | '\\' :: 'u' :: a :: b :: c :: d :: rest =>
    match Text.Hex.digitsOnto 0 [a, b, c, d] with
    | some value => unitsOnto (UInt16.ofNat value :: found) rest
    | none => none
  | '\\' :: letter :: rest =>
    match unescaped? letter with
    | some c => unitsOnto ((Text.Utf16.ofChar c).reverse ++ found) rest
    | none => none
  | c :: rest =>
    if c.toNat < 0x20 then none else unitsOnto ((Text.Utf16.ofChar c).reverse ++ found) rest

/-- A text behind its opening quote; a hole if a surrogate in it stands alone. -/
def string : Scan (Option String) := fun source =>
  (unitsOnto [] source).map fun (units, rest) => (Text.Utf16.decode units, rest)

/-- At least one item, then the closing bracket, behind the items found so far, latest first. -/
def itemsOnto {α : Type} (closing : Char) (item : Scan α) (found : List α) : Nat → Scan (List α)
  | 0 => fail
  | rounds + 1 => do
    let value ← item
    skipBlanks
    let c ← take
    if c = ',' then itemsOnto closing item (value :: found) rounds
    else if c = closing then return (value :: found).reverse
    else fail

/-- Items with commas between them, behind the opening bracket. -/
def items {α : Type} (closing : Char) (item : Scan α) (rounds : Nat) : Scan (List α) := do
  skipBlanks
  match ← takeIf (· == closing) with
  | [] => itemsOnto closing item [] rounds
  | _ => return []

/-- A name, a colon and a value. -/
def member (value : Scan Json) : Scan (Option String × Json) := do
  skipBlanks
  if (← take) = '"' then
    let name ← string
    skipBlanks
    if (← take) = ':' then return (name, ← value) else fail
  else fail

/-- A value and the blanks before it. -/
def value : Nat → Scan Json
  | 0 => fail
  | depth + 1 => do
    skipBlanks
    match (← get).head? with
    | some '"' =>
      discard take
      return .string (← string)
    | some '[' =>
      discard take
      return .array (← items ']' (value depth) depth)
    | some '\x7b' =>
      discard take
      return .object (← items '\x7d' (member (value depth)) depth)
    | some 't' => word "true" (.bool true)
    | some 'f' => word "false" (.bool false)
    | some 'n' => word "null" .null
    | _ => number

end Scan

/-- The value that a text spells. -/
def read? (source : String) : Option Json :=
  match Scan.value (source.toList.length + 1) source.toList with
  | some (value, rest) => if rest.all Scan.isBlank then some value else none
  | none => none

end JarRemap.Json
