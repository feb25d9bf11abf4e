import JarRemap.Archive.Opened
import JarRemap.Stage
import JarRemap.Structure.ParameterNames

/-!
# The stage that puts structural metadata back

The record for a class is looked up by the name that the class has now.
-/

namespace JarRemap.Stage.Inject

def name : String := "inject"

/-- Puts back what the table says about the class. -/
def injectClass (table : StructureTable) (generates : Bool) (file : ClassFile) :
    Except Failure (ClassFile × Bool) := do
  let className ← Failure.ofFault file.name
  match (Injection.inject (table.get? className) generates).run.run file with
  | (.ok changed, file) => return (file, changed)
  | (.error failure, _) => throw failure

def injectEntry (table : StructureTable) (generates : Bool) (entry : ArchiveEntry) :
    Except Failure (ArchiveEntry × EntryFate) :=
  if entry.isClass then entry.changeClass (injectClass table generates)
  else .ok (entry, .copied)

def run (table : StructureTable) (generates : Bool) (archive : OpenArchive) :
    Except Failure (List ArchiveEntry × StageStats) :=
  Staged.counted name <$> archive.forEntries (injectEntry table generates)

end JarRemap.Stage.Inject
