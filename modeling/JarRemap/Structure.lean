import JarRemap.Dictionary
import JarRemap.Failure

/-!
# Structural metadata

What a class lost when it was stripped of everything that does not matter for running it: where it
was declared, the classes nested in it, generic signatures, checked exceptions and parameter names.
A table of such records says, class by class, what to put back.
-/

namespace JarRemap

/-- The class, and the method if both its parts are known, around a class. -/
structure EnclosingRecord where
  owner : String
  name : Option String
  descriptor : Option String
deriving DecidableEq, Repr

/-- What a class knows about a nested class. -/
structure InnerRecord where
  innerClass : String
  outerClass : Option String
  innerName : Option String
  /-- Hexadecimal digits; nothing stands for no flag at all. -/
  access : Option String
  /-- The first number of the classes without a name that are nested in it. -/
  start : Option UInt32
deriving DecidableEq, Repr

structure MethodStructure where
  exceptions : Option (List String)
  parameters : Option (List String)
  signature : Option String
deriving DecidableEq, Repr

structure ClassStructure where
  enclosingMethod : Option EnclosingRecord
  innerClasses : Option (List InnerRecord)
  signature : Option String
  /-- By name and descriptor, with a space between them. -/
  methods : Dictionary MethodStructure
deriving DecidableEq, Repr

/-- Records by the name of their class. -/
abbrev StructureTable := Dictionary ClassStructure

namespace InnerRecord

/-- The digits behind any number of marks that say that they are hexadecimal. -/
def withoutMarks : List Char → List Char
  | '0' :: 'x' :: rest => withoutMarks rest
  | chars => chars

def accessFlags (record : InnerRecord) : Except Failure AccessFlags :=
  match record.access with
  | none => .ok .empty
  | some text =>
    match Text.Hex.uint16? (withoutMarks text.toList) with
    | some bits => .ok ⟨bits⟩
    | none => .error (.accessValue text)

def withAccess (record : InnerRecord) (flags : AccessFlags) : InnerRecord :=
  { record with
    access := if flags = .empty then none else some (Text.Hex.ofNat flags.bits.toNat) }

end InnerRecord

end JarRemap
