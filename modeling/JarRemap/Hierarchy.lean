import JarRemap.ClassFile

/-!
# Class hierarchy

The direct supertypes of every class of an archive. Supertypes that the archive does not define are
known by name only, and a walk through the hierarchy stops there.
-/

namespace JarRemap

structure ClassDefinition where
  name : String
  /-- The superclass first, then the interfaces as they are declared. -/
  supertypes : List String
deriving DecidableEq, Repr

structure Hierarchy where
  classes : List ClassDefinition
deriving DecidableEq, Repr

namespace Hierarchy

def empty : Hierarchy := ⟨[]⟩

def isDefined (hierarchy : Hierarchy) (name : String) : Bool :=
  hierarchy.classes.any (·.name == name)

/-- Defines a class, unless it is defined already. -/
def insert (hierarchy : Hierarchy) (name : String) (superName : Option String)
    (interfaces : List String) : Hierarchy :=
  if hierarchy.isDefined name then hierarchy
  else ⟨hierarchy.classes ++ [⟨name, superName.toList ++ interfaces⟩]⟩

def insertClass (hierarchy : Hierarchy) (file : ClassFile) : Except Fault Hierarchy := do
  let interfaces ← file.interfaceNames
  let name ← file.name
  let superName ← file.superName
  return hierarchy.insert name superName interfaces

/-- The name occurs, as a class or as a supertype. -/
def contains (hierarchy : Hierarchy) (name : String) : Bool :=
  hierarchy.classes.any fun definition =>
    definition.name == name || definition.supertypes.contains name

def size (hierarchy : Hierarchy) : Nat := hierarchy.classes.length

/-- The direct supertypes of a class; none if the class is not defined. -/
def supertypes (hierarchy : Hierarchy) (name : String) : List String :=
  match hierarchy.classes.find? (·.name == name) with
  | some definition => definition.supertypes
  | none => []

/-- The names that are not among those seen, each once. -/
def unseen (seen : List String) : List String → List String
  | [] => []
  | name :: rest =>
    if name ∈ seen then unseen seen rest else name :: unseen (name :: seen) rest

/-- Visits the waiting classes in turn. Classes found on the way join the end of the queue and of
the names seen. -/
def walk (hierarchy : Hierarchy) : Nat → List String → List String → List String
  | 0, _, seen => seen
  | _ + 1, [], seen => seen
  | visits + 1, name :: waiting, seen =>
    let found := unseen seen (hierarchy.supertypes name)
    walk hierarchy visits (waiting ++ found) (seen ++ found)

/-- Every class but the first to be visited is found as a supertype, so there are no more visits
than there are declared supertypes, and one. -/
def visits (hierarchy : Hierarchy) : Nat :=
  hierarchy.classes.foldr (·.supertypes.length + ·) 1

/-- Every transitive supertype but the class itself, nearest first. -/
def ancestors (hierarchy : Hierarchy) (name : String) : List String :=
  (hierarchy.walk hierarchy.visits [name] [name]).drop 1

end Hierarchy

end JarRemap
