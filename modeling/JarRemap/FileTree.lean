import JarRemap.Archive.Container.Read
import JarRemap.Failure
import JarRemap.Path

/-!
# File trees

Directories and files as far as they matter here. A file holds plain bytes, or an archive that was
made here and is kept as the list of the entries that were put in.

Names lead from the root, or from the working directory if a path does not begin with a slash. Every
step of a path but the last has to lead to a directory that exists.
-/

namespace JarRemap

inductive FileContent
  | bytes (data : Bytes)
  | archive (entries : List ArchiveEntry)
deriving DecidableEq, Repr

/-- What is read from a file without any regard to what it is. -/
def FileContent.data : FileContent → Bytes
  | bytes data => data
  | archive entries => Container.encode entries

/-- What the file holds entry by entry, if it is an archive. -/
def FileContent.entries? : FileContent → Option (List (Except Container.EntryFault ArchiveEntry))
  | bytes data => Container.decode? data
  | archive entries => some (entries.map fun entry => .ok entry.stored)

inductive Node
  | file (content : FileContent)
  | directory
deriving DecidableEq, Repr

/-- The names that lead to a place, the innermost first; the root has none. -/
abbrev Place := List String

structure FileTree where
  nodes : List (Place × Node)
  /-- The working directory. -/
  here : Place
deriving DecidableEq, Repr

namespace FileTree

/-- The root is always there. -/
def find? (tree : FileTree) (place : Place) : Option Node :=
  if place = [] then some .directory else tree.nodes.lookup place

def erase (tree : FileTree) (place : Place) : FileTree :=
  { tree with nodes := tree.nodes.filter (·.1 != place) }

def put (tree : FileTree) (place : Place) (node : Node) : FileTree :=
  { tree with nodes := (place, node) :: (tree.erase place).nodes }

/-- A working directory in which there is nothing. -/
def emptyAt (here : Place) : FileTree :=
  ⟨(List.range here.length).map fun depth => (here.drop depth, .directory), here⟩

/-! ## Following a path -/

/-- Where one more step leads. -/
def stepFrom (place : Place) (name : String) : Place :=
  if name = "." then place else if name = ".." then place.tail else name :: place

/-- The greatest number of bytes in a name. -/
def maxName : Nat := 255

/-- The greatest number of bytes in a path. -/
def maxPath : Nat := 4095

/-- A place as the one path from the root that has no dots in it. -/
def pathTo (place : Place) : Path := ⟨"/" ++ "/".intercalate place.reverse⟩

/-- Steps can be taken from directories only. -/
def enter (tree : FileTree) (place : Place) : Except FileFault Unit :=
  match tree.find? place with
  | none => .error .notFound
  | some (.file _) => .error .notDirectory
  | some .directory => .ok ()

/-- Follows the steps; where the last one leads, nothing has to be. -/
def walk (tree : FileTree) : Place → List String → Except FileFault Place
  | place, [] => .ok place
  | place, name :: rest => do
    tree.enter place
    if name.utf8ByteSize > maxName then throw .nameTooLong
    else walk tree (stepFrom place name) rest

/-- Where the first step of a path is taken. -/
def outset (tree : FileTree) (path : Path) : Except FileFault Place :=
  if path.text.toList.contains '\x00' then .error .zeroInName
  else if path.text.isEmpty then .error .notFound
  else .ok (if path.isAbsolute then [] else tree.here)

/-- Where a path of any length leads, slashes at its end aside. -/
def follow (tree : FileTree) (path : Path) : Except FileFault Place := do
  tree.walk (← tree.outset path) path.steps

/-- Where the first step of a path is taken, if the path is not too long. -/
def departure (tree : FileTree) (path : Path) : Except FileFault Place := do
  let place ← tree.outset path
  if path.text.utf8ByteSize > maxPath then throw .nameTooLong
  else return place

/-- Where a path leads, slashes at its end aside. -/
def target (tree : FileTree) (path : Path) : Except FileFault Place := do
  tree.walk (← tree.departure path) path.steps

/-- Where the last step of a path is taken. -/
def beforeLast (tree : FileTree) (path : Path) : Except FileFault Place := do
  let place ← tree.walk (← tree.departure path) path.steps.dropLast
  tree.enter place
  return place

/-- What is at the place where a path leads. A slash at the end is for directories only. -/
def arrive (tree : FileTree) (path : Path) (place : Place) : Except FileFault (Place × Node) :=
  match tree.find? place with
  | none => .error .notFound
  | some (.file content) =>
    if path.namesDirectory then .error .notDirectory else .ok (place, .file content)
  | some .directory => .ok (place, .directory)

/-- Where a path leads, and what is there. -/
def locate (tree : FileTree) (path : Path) : Except FileFault (Place × Node) := do
  tree.arrive path (← tree.target path)

def isFile (tree : FileTree) (path : Path) : Bool :=
  match tree.locate path with
  | .ok (_, .file _) => true
  | _ => false

def isDirectory (tree : FileTree) (path : Path) : Bool :=
  match tree.locate path with
  | .ok (_, .directory) => true
  | _ => false

def isThere (tree : FileTree) (path : Path) : Bool := (tree.locate path).isOk

/-- The one path of what a path leads to. The path itself is taken step by step and may be of any
length. -/
def canonical (tree : FileTree) (path : Path) : Except FileFault Path := do
  let place ← tree.follow path
  if (pathTo place).text.utf8ByteSize > maxPath then throw .nameTooLong
  else
    let (place, _) ← tree.arrive path place
    return pathTo place

/-- Everything below a place, by the path that leads there from it and in the order of these paths.
Those of directories end with a slash. -/
def below (tree : FileTree) (place : Place) : List String :=
  (tree.nodes.filterMap fun (found, node) =>
    let ending := match node with
      | .directory => "/"
      | .file _ => ""
    (place.reverse.isPrefixOf? found.reverse).bind fun names =>
      if names.isEmpty then none else some ("/".intercalate names ++ ending)).mergeSort (· ≤ ·)

/-! ## Reading and changing -/

def read (tree : FileTree) (path : Path) : Except FileFault FileContent := do
  match ← tree.locate path with
  | (_, .file content) => return content
  | (_, .directory) => throw .isDirectory

/-- Writes a file, which need not have been there. A name with a slash behind it is not even looked
up. -/
def write (tree : FileTree) (path : Path) (content : FileContent) :
    Except FileFault FileTree := do
  if path.namesDirectory && path.endsInName then
    let _ ← tree.beforeLast path
    throw .isDirectory
  else
    let place ← tree.target path
    if tree.find? place = some .directory then throw .isDirectory
    else return tree.put place (.file content)

/-- Moves a file with this content to where the path leads, and gives it the name that the path ends
in. -/
def moveTo (tree : FileTree) (path : Path) (content : FileContent) :
    Except FileFault FileTree := do
  let place ← (tree.target path).mapError fun fault =>
    if fault = .zeroInName then .invalid else fault
  if !path.endsInName then throw .busy
  else if path.namesDirectory then throw .notDirectory
  else if tree.find? place = some .directory then throw .isDirectory
  else return tree.put place (.file content)

def remove (tree : FileTree) (path : Path) : Except FileFault FileTree := do
  match ← tree.locate path with
  | (place, .file _) => return tree.erase place
  | (_, .directory) => throw .isDirectory

def makeDirectory (tree : FileTree) (path : Path) : Except FileFault FileTree := do
  let place ← tree.target path
  if (tree.find? place).isSome then throw .alreadyExists
  else return tree.put place .directory

/-- Makes a directory in a parent that is there. That there is one already is fine too. -/
def ensureDirectory (tree : FileTree) (path : Path) : Except FileFault FileTree :=
  match tree.makeDirectory path with
  | .ok made => .ok made
  | .error fault => if tree.isDirectory path then .ok tree else .error fault

/-- Makes a directory and all the parents that are missing, where a path has no more than `depth` of
them. The parents that were made stay when a later step fails. -/
def makeDirectories (tree : FileTree) : Nat → Path → FileTree × Except FileFault Unit
  | 0, _ => (tree, .error .notFound)
  | depth + 1, path =>
    if path.text.isEmpty then (tree, .ok ())
    else
      match tree.ensureDirectory path with
      | .ok made => (made, .ok ())
      | .error .notFound =>
        match path.parent? with
        | none => (tree, .error .notFound)
        | some parent =>
          match tree.makeDirectories depth parent with
          | (made, .error fault) => (made, .error fault)
          | (made, .ok ()) =>
            match made.ensureDirectory path with
            | .ok made => (made, .ok ())
            | .error fault => (made, .error fault)
      | .error fault => (tree, .error fault)

/-- Makes a directory and all the parents that are missing. -/
def makeAll (tree : FileTree) (path : Path) : FileTree × Except FileFault Unit :=
  tree.makeDirectories (path.pieces.length + 1) path

end FileTree

end JarRemap
