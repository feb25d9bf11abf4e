import JarRemap.Archive.Opened
import JarRemap.Stage
import JarRemap.Synthetic

/-!
# The stage that strips synthetic marks

Directories, entries of the metadata tree and entries that hold no class are copied.
-/

namespace JarRemap.Stage.Strip

def name : String := "strip"

def stripEntry (entry : ArchiveEntry) : Except Failure (ArchiveEntry × EntryFate) :=
  if entry.isMetadata || !entry.isClass then .ok (entry, .copied)
  else entry.changeClass fun file => Failure.ofFault (Synthetic.strip file)

def run (archive : OpenArchive) : Except Failure (List ArchiveEntry × StageStats) :=
  Staged.counted name <$> archive.forEntries stripEntry

end JarRemap.Stage.Strip
