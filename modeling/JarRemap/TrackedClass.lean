import JarRemap.ClassFile.Edit

/-!
# Tracked classes

A class that is being changed, together with the names it and its members had when it was read.
Members are never reordered, so the old names are found by position.
-/

namespace JarRemap

/-- The names of a class as it was read. -/
structure FirstNames where
  name : String
  superName : Option String
  fields : List (String × String)
  methods : List (String × String)
deriving DecidableEq, Repr

namespace FirstNames

def ofClass (file : ClassFile) : Except Fault FirstNames := do
  let name ← file.name
  let superName ← file.superName
  let fields ← file.symbols .field
  let methods ← file.symbols .method
  return ⟨name, superName, fields, methods⟩

def members (names : FirstNames) : MemberKind → List (String × String)
  | .field => names.fields
  | .method => names.methods

end FirstNames

structure TrackedClass where
  current : ClassFile
  first : FirstNames
deriving DecidableEq, Repr

def TrackedClass.ofClass (file : ClassFile) : Except Fault TrackedClass :=
  return ⟨file, ← FirstNames.ofClass file⟩

end JarRemap
