import JarRemap.Descriptor

/-!
# Class names in descriptors

To rename classes, a descriptor is only taken apart into class names and everything else: whatever
stands between an `L` and the next semicolon is a class name. A text need not be a proper
descriptor for that, as long as every name is ended.
-/

namespace JarRemap

/-- The new names of classes; a class that keeps its name has none. -/
abbrev Renaming := String → Option String

def Renaming.apply (names : Renaming) (name : String) : String := (names name).getD name

namespace Descriptor

inductive Piece
  | other (c : Char)
  | name (chars : List Char)
deriving DecidableEq, Repr

def Piece.text : Piece → List Char
  | other c => [c]
  | name chars => 'L' :: (chars ++ [';'])

/-- Continues behind the pieces found so far and, inside a name, what was read of it, all latest
first. -/
def piecesOnto (found : List Piece) : Option (List Char) → List Char → Option (List Piece)
  | none, [] => some found.reverse
  | some _, [] => none
  | none, c :: rest =>
    if c = 'L' then piecesOnto found (some []) rest else piecesOnto (.other c :: found) none rest
  | some name, c :: rest =>
    if c = ';' then piecesOnto (.name name.reverse :: found) none rest
    else piecesOnto found (some (c :: name)) rest

/-- `none` if the last class name is not ended. -/
def pieces? (source : List Char) : Option (List Piece) := piecesOnto [] none source

def Piece.rename (names : Renaming) : Piece → Piece
  | other c => other c
  | name chars => name (names.apply (String.ofList chars)).toList

/-- The descriptor with every class name renamed. -/
def rename (names : Renaming) (descriptor : String) : Except Fault String :=
  match pieces? descriptor.toList with
  | some pieces => .ok (String.ofList ((pieces.map (Piece.rename names)).flatMap Piece.text))
  | none => .error (.badDescriptor descriptor)

/-- The new name for a class entry, which holds a descriptor if the class is an array; `none` if it
keeps its name. -/
def renameReference (names : Renaming) (name : String) : Except Fault (Option String) :=
  if name.toList.head? = some '[' then do
    let renamed ← rename names name
    return if renamed = name then none else some renamed
  else .ok (names name)

end Descriptor

end JarRemap
