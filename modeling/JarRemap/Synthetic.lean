import JarRemap.ClassFile

/-!
# Synthetic members

Members that a compiler adds are marked synthetic and hidden from source code. In ordinary classes
the mark is taken off; enums, and classes that are synthetic themselves, are left as they are.
-/

namespace JarRemap.Synthetic

def unmark (member : Member) : Member :=
  { member with access := member.access.without .accSynthetic }

/-- The class without synthetic members. -/
def unmarkMembers (file : ClassFile) : ClassFile :=
  { file with fields := file.fields.map unmark, methods := file.methods.map unmark }

def hasMark (member : Member) : Bool := member.access.contains .accSynthetic

/-- The class after stripping, and whether that changed anything. -/
def strip (file : ClassFile) : Except Fault (ClassFile × Bool) := do
  if file.access.contains .accSynthetic then return (file, false)
  else if ← file.isEnum then return (file, false)
  else return (unmarkMembers file, file.fields.any hasMark || file.methods.any hasMark)

end JarRemap.Synthetic
