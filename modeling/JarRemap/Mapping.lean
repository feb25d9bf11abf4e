import JarRemap.Descriptor.Rename
import JarRemap.Text.Blank

/-!
# Mapping tables

Old and new names of packages, classes, fields and methods. A table keeps its entries in order and
has at most one for each old symbol.

A class without an entry of its own moves along with the class it is nested in, and else with its
package.
-/

namespace JarRemap

inductive MappingKind
  | package
  | class_
  | field
  | method
deriving DecidableEq, Repr

/-- One entry. Only fields and methods have members, and only methods have descriptors. -/
structure MappingEntry where
  kind : MappingKind
  oldOwner : String
  newOwner : String
  oldMember : Option String
  newMember : Option String
  oldDescriptor : Option String
  newDescriptor : Option String
deriving DecidableEq, Repr

namespace MappingKind

def text : MappingKind → String
  | package => "Package"
  | class_ => "Class"
  | field => "Field"
  | method => "Method"

end MappingKind

namespace MappingEntry

def ofOwners (kind : MappingKind) (old new : String) : MappingEntry :=
  ⟨kind, old, new, none, none, none, none⟩

/-- The old symbol as text: kind, owner, and then whatever else the entry has. -/
def key (entry : MappingEntry) : String :=
  let member := match entry.oldMember with
    | some name => "/" ++ name
    | none => ""
  let descriptor := match entry.oldDescriptor with
    | some text => " " ++ text
    | none => ""
  entry.kind.text ++ " " ++ entry.oldOwner ++ member ++ descriptor

/-- The entry read from new names to old ones. -/
def inverted (entry : MappingEntry) : MappingEntry where
  kind := entry.kind
  oldOwner := entry.newOwner
  newOwner := entry.oldOwner
  oldMember := entry.newMember
  newMember := entry.oldMember
  oldDescriptor := entry.newDescriptor
  newDescriptor := entry.oldDescriptor

/-- The new name of a package or class, if the entry is for it. -/
def owner? (kind : MappingKind) (old : String) (entry : MappingEntry) : Option String :=
  if entry.kind = kind ∧ entry.oldOwner = old then some entry.newOwner else none

/-- The new name of a field, if the entry is for it. -/
def field? (owner name : String) (entry : MappingEntry) : Option String :=
  if entry.kind = .field ∧ entry.oldOwner = owner ∧ entry.oldMember = some name then
    entry.newMember
  else none

/-- The new name of a method, if the entry is for it. -/
def method? (owner name descriptor : String) (entry : MappingEntry) : Option String :=
  if entry.kind = .method ∧ entry.oldOwner = owner ∧ entry.oldMember = some name ∧
      entry.oldDescriptor = some descriptor then
    entry.newMember
  else none

end MappingEntry

/-- A method that gets a new name. -/
structure RenamedMethod where
  owner : String
  name : String
  descriptor : String
  newName : String
deriving DecidableEq, Repr

namespace RenamedMethod

/-- The new name that all methods called `name` share with each other and with the one found before,
whatever their descriptors. A method that has another one ends the search. -/
def sharedName? (owner name : String) : Option String → List RenamedMethod → Option String
  | found, [] => found
  | found, method :: rest =>
    if method.owner ≠ owner ∨ method.name ≠ name then sharedName? owner name found rest
    else
      match found with
      | some previous =>
        if previous ≠ method.newName then none
        else sharedName? owner name (some method.newName) rest
      | none => sharedName? owner name (some method.newName) rest

end RenamedMethod

/-- The method that an entry gives a new name, if it is for one. -/
def MappingEntry.renamedMethod? (entry : MappingEntry) : Option RenamedMethod :=
  match entry.kind, entry.oldMember, entry.newMember, entry.oldDescriptor with
  | .method, some name, some newName, some descriptor =>
    some ⟨entry.oldOwner, name, descriptor, newName⟩
  | _, _, _, _ => none

structure MappingTable where
  entries : List MappingEntry
deriving DecidableEq, Repr

namespace MappingTable

def empty : MappingTable := ⟨[]⟩

/-- Another entry, or the key that the table has an entry for already. -/
def push (table : MappingTable) (entry : MappingEntry) : Except String MappingTable :=
  if table.entries.any (·.key == entry.key) then .error entry.key
  else .ok ⟨table.entries ++ [entry]⟩

/-- The table read from new names to old ones, or the key of a new symbol that two old ones share. -/
def inverse (table : MappingTable) : Except String MappingTable :=
  table.entries.foldlM (fun inverse entry => inverse.push entry.inverted) empty

/-- What the last entry that has an answer says. -/
def ask {α : Type} (table : MappingTable) (answer : MappingEntry → Option α) : Option α :=
  table.entries.reverse.findSome? answer

def field? (table : MappingTable) (owner name : String) : Option String :=
  table.ask (MappingEntry.field? owner name)

def method? (table : MappingTable) (owner name descriptor : String) : Option String :=
  table.ask (MappingEntry.method? owner name descriptor)

/-- The methods that get new names. -/
def methods (table : MappingTable) : List RenamedMethod :=
  table.entries.filterMap MappingEntry.renamedMethod?

/-- The new name that all methods called `name` share, whatever their descriptors. -/
def methodByName? (table : MappingTable) (owner name : String) : Option String :=
  RenamedMethod.sharedName? owner name none table.methods

/-- The name of the package without a name. -/
def defaultPackage : String := "."

/-- The package of a class name, and the rest of the name. -/
def splitPackage (name : List Char) : String × List Char :=
  match Text.cutLast? '/' name with
  | some (package, simple) => (String.ofList package, simple)
  | none => (defaultPackage, name)

/-- The new name of a class whose package moves. -/
def packagedName? (table : MappingTable) (name : List Char) : Option (List Char) :=
  let (package, simple) := splitPackage name
  match table.ask (MappingEntry.owner? .package package) with
  | none => none
  | some new =>
    let renamed := if new = defaultPackage then simple else new.toList ++ '/' :: simple
    if renamed = name then none else some renamed

/-- A class by its name backwards, and what another name adds to it. -/
abbrev Enclosing := List Char × List Char

/-- The classes around one that is named `added` behind these characters, given backwards. They end
in front of a dollar sign, and the innermost comes first. -/
def around (added : List Char) : List Char → List Enclosing
  | [] => []
  | c :: before =>
    if c = '$' && !before.isEmpty then (before, c :: added) :: around (c :: added) before
    else around (c :: added) before

/-- The class itself and the classes around it, from the inside out. -/
def enclosing (name : List Char) : List Enclosing :=
  (name.reverse, []) :: around [] name.reverse

/-- The new name of a class that lies in one with an entry of its own. -/
def enclosedName? (table : MappingTable) : Enclosing → Option (List Char)
  | (outer, added) =>
    (table.ask (MappingEntry.owner? .class_ (String.ofList outer.reverse))).map (·.toList ++ added)

/-- The new name of a class that lies in one whose package moves. -/
def movedName? (table : MappingTable) : Enclosing → Option (List Char)
  | (outer, added) => (table.packagedName? outer.reverse).map (· ++ added)

/-- The new name of a class. The innermost class around it that has an entry of its own decides, and
if there is none, the outermost whose package moves. -/
def renamed? (table : MappingTable) (name : List Char) : Option (List Char) :=
  let classes := enclosing name
  match classes.findSome? table.enclosedName? with
  | some new => some new
  | none => classes.reverse.findSome? table.movedName?

/-- The new name of a class, unless it keeps its name. -/
def class? (table : MappingTable) : Renaming := fun name =>
  (table.renamed? name.toList).map String.ofList

end MappingTable

end JarRemap
