import JarRemap.Text.Blank
import JarRemap.Bytes

/-!
# Archive entries

What an archive holds, entry by entry: a name, bytes, whether it is a directory, and when it was
last modified. Names of directories end with a slash, or with a backslash.
-/

namespace JarRemap

/-- A date and time. An archive stores only even seconds. -/
structure Timestamp where
  year : Nat
  month : Nat
  day : Nat
  hour : Nat
  minute : Nat
  second : Nat
deriving DecidableEq, Repr

namespace Timestamp

/-- The earliest time that an archive can store. -/
def epoch : Timestamp := ⟨1980, 1, 1, 0, 0, 0⟩

/-- The time as it is stored. -/
def stored (stamp : Timestamp) : Timestamp := { stamp with second := stamp.second / 2 * 2 }

end Timestamp

structure ArchiveEntry where
  name : String
  data : Bytes
  isDirectory : Bool
  modified : Timestamp
deriving DecidableEq, Repr

namespace ArchiveEntry

def classSuffix : String := ".class"

/-- Occurs in the names of manifests, signatures and services. -/
def metadataMark : String := "META-INF"

/-- The name of the class in a class entry. -/
def className? (name : String) : Option String :=
  (Text.before? classSuffix.toList name.toList).map String.ofList

def isClassName (name : String) : Bool := (className? name).isSome

/-- Whether `part` stands anywhere in the text. -/
def occurs (part : List Char) : List Char → Bool
  | [] => part.isEmpty
  | c :: rest => (Text.after? part (c :: rest)).isSome || occurs part rest

def isMetadataName (name : String) : Bool := occurs metadataMark.toList name.toList

def isClass (entry : ArchiveEntry) : Bool := !entry.isDirectory && isClassName entry.name

def isMetadata (entry : ArchiveEntry) : Bool := isMetadataName entry.name

/-- The name ends with a slash, or with a backslash. -/
def isDirectoryName (name : String) : Bool :=
  match name.toList.getLast? with
  | some c => c == '/' || c == '\\'
  | none => false

/-- The name under which the entry is stored. -/
def storedName (entry : ArchiveEntry) : String :=
  if entry.isDirectory && !isDirectoryName entry.name then entry.name ++ "/" else entry.name

/-- The entry as an archive gives it back. Only the name tells that it is a directory. -/
def stored (entry : ArchiveEntry) : ArchiveEntry :=
  let isDirectory := isDirectoryName entry.storedName
  ⟨entry.storedName, if isDirectory then [] else entry.data, isDirectory, entry.modified.stored⟩

end ArchiveEntry

end JarRemap
