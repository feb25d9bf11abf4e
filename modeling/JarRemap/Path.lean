import JarRemap.Text.Blank

/-!
# Paths

A path is text that names a file step by step, with slashes between the steps. Taking a path apart
looks only at the text: repeated slashes and single dots do not count, unless a single dot is where
the path begins.
-/

namespace JarRemap

structure Path where
  text : String
deriving DecidableEq, Repr

namespace Path

def isAbsolute (path : Path) : Bool := path.text.toList.head? == some '/'

/-- The path ends with a slash, so it can only name a directory. -/
def namesDirectory (path : Path) : Bool := path.text.toList.getLast? == some '/'

def pieces (path : Path) : List (List Char) := Text.splitWhen (· == '/') path.text.toList

/-- The steps that the path spells, dots included. -/
def steps (path : Path) : List String :=
  (path.pieces.filter (!·.isEmpty)).map String.ofList

/-- The last step is a name, so it could be given to something else. -/
def endsInName (path : Path) : Bool :=
  match path.steps.getLast? with
  | none => false
  | some step => step != "." && step != ".."

/-- Without pieces at the end that do not count, though the first piece stays. -/
def trimPieces : List (List Char) → List (List Char)
  | [] => []
  | first :: rest =>
    first :: (rest.reverse.dropWhile fun piece => piece.isEmpty || piece == ['.']).reverse

/-- The text of some first pieces of a path. -/
def joinPieces : List (List Char) → String
  | [[]] => "/"
  | pieces => "/".intercalate (pieces.map String.ofList)

/-- What the path names last, unless that is the root, no name at all, or a step up. -/
def fileName? (path : Path) : Option (List Char) :=
  match (trimPieces path.pieces).getLast? with
  | none | some [] | some ['.'] | some ['.', '.'] => none
  | some name => some name

/-- The path without its last step, if it has one. -/
def parent? (path : Path) : Option Path :=
  match trimPieces path.pieces with
  | [] | [[]] => none
  | pieces => some ⟨joinPieces (trimPieces pieces.dropLast)⟩

/-- A file name without its extension, and the extension if there is one: what follows the last dot,
where something stands before it. -/
def splitName (name : List Char) : List Char × Option (List Char) :=
  match Text.cutLast? '.' name with
  | none | some ([], _) => (name, none)
  | some (stem, extension) => (stem, some extension)

def extension? (path : Path) : Option (List Char) :=
  path.fileName?.bind fun name => (splitName name).2

/-- The path with one more step. -/
def push (path : Path) (name : String) : Path :=
  if path.text.isEmpty || path.namesDirectory then ⟨path.text ++ name⟩
  else ⟨path.text ++ "/" ++ name⟩

/-- The path with another file name, or with one behind it if it had none. -/
def withFileName (path : Path) (name : String) : Path :=
  match path.fileName?, path.parent? with
  | some _, some parent => parent.push name
  | _, _ => path.push name

/-- The path with `mark` behind the stem of its file name. -/
def markStem (path : Path) (mark : String) : Path :=
  let (stem, extension) := splitName (path.fileName?.getD [])
  let marked := String.ofList stem ++ mark
  path.withFileName <|
    match extension with
    | some extension => marked ++ "." ++ String.ofList extension
    | none => marked

/-- The path with `ending` behind its text. -/
def extend (path : Path) (ending : String) : Path := ⟨path.text ++ ending⟩

end Path

end JarRemap
