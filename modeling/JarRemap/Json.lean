import JarRemap.Text.Hex

/-!
# JSON

Values as JSON has them, and their text in two layouts. The members of an object keep their order
and may repeat a name. A number is the literal that spells it, since nothing is ever computed with
it.

A text may name half of a surrogate pair by its number. Such a text stands for no string, and it is
kept as a hole: it may occur where nobody looks at it.
-/

namespace JarRemap

inductive Json
  | null
  | bool (value : Bool)
  | number (literal : String)
  | string (text : Option String)
  | array (items : List Json)
  | object (members : List (Option String × Json))
deriving Repr

namespace Json

def text (value : String) : Json := .string (some value)

def ofNat (value : Nat) : Json := .number (toString value)

def ofUInt16s (values : List UInt16) : Json := .array (values.map fun value => ofNat value.toNat)

def orNull (value : Option Json) : Json := value.getD null

def textOrNull (value : Option String) : Json := orNull (value.map text)

def ofTexts (values : List String) : Json := .array (values.map text)

/-- An object with those of the members that are there. -/
def record (members : List (String × Option Json)) : Json :=
  .object (members.filterMap fun (name, value) => value.map fun value => (some name, value))

/-- What stands between the parts of a value. -/
structure Layout where
  /-- In front of every item and member, and of the bracket that closes them. -/
  line : Nat → List Char
  /-- Between the name of a member and its value. -/
  colon : List Char

namespace Layout

/-- No blanks at all. -/
def compact : Layout := ⟨fun _ => [], [':']⟩

/-- Every item and member on its own line, two blanks further in than what it belongs to. -/
def pretty : Layout := ⟨fun depth => '\n' :: List.replicate (2 * depth) ' ', [':', ' ']⟩

end Layout

/-- The letter behind the backslash, for characters that have a short escape. -/
def escapeLetter? (c : Char) : Option Char :=
  if c = '"' then some '"'
  else if c = '\\' then some '\\'
  else if c = '\x08' then some 'b'
  else if c = '\x0c' then some 'f'
  else if c = '\n' then some 'n'
  else if c = '\r' then some 'r'
  else if c = '\t' then some 't'
  else none

/-- A character as it stands between quotes. Only quotes, backslashes and control characters are
escaped. -/
def escaped (c : Char) : List Char :=
  match escapeLetter? c with
  | some letter => ['\\', letter]
  | none =>
    if c.toNat < 0x20 then
      ['\\', 'u', '0', '0', Nat.digitChar (c.toNat / 16), Nat.digitChar (c.toNat % 16)]
    else [c]

def quoted (text : List Char) : List Char := '"' :: text.flatMap escaped ++ ['"']

/-- A bracket, the parts on lines of their own with commas between them, and the other bracket. -/
def enclosed (layout : Layout) (depth : Nat) (opening closing : Char) :
    List (List Char) → List Char
  | [] => [opening, closing]
  | first :: rest =>
    opening :: layout.line (depth + 1) ++ first ++
      rest.flatMap (fun part => ',' :: layout.line (depth + 1) ++ part) ++
      layout.line depth ++ [closing]

mutual

/-- The characters of a value that stands `depth` levels deep. -/
def print (layout : Layout) (depth : Nat) : Json → List Char
  | .null => "null".toList
  | .bool true => "true".toList
  | .bool false => "false".toList
  | .number literal => literal.toList
  | .string text => quoted (text.getD "").toList
  | .array items => enclosed layout depth '[' ']' (printItems layout (depth + 1) items)
  | .object members => enclosed layout depth '\x7b' '\x7d' (printMembers layout (depth + 1) members)

def printItems (layout : Layout) (depth : Nat) : List Json → List (List Char)
  | [] => []
  | item :: rest => print layout depth item :: printItems layout depth rest

def printMembers (layout : Layout) (depth : Nat) : List (Option String × Json) → List (List Char)
  | [] => []
  | (name, value) :: rest =>
    (quoted (name.getD "").toList ++ layout.colon ++ print layout depth value) ::
      printMembers layout depth rest

end

def compact (value : Json) : String := String.ofList (value.print .compact 0)

def pretty (value : Json) : String := String.ofList (value.print .pretty 0)

end Json

end JarRemap
