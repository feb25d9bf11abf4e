import JarRemap.ArchiveEntry
import JarRemap.Failure

/-!
# Open archives

An archive that was opened tells how many entries it has, but each of them may still turn out to be
unreadable. Work that goes through the entries one by one stops at the first that is, or at the
first on which the work itself fails.
-/

namespace JarRemap

/-- The entries in order, each as it is, or with what keeps it from being read. -/
abbrev OpenArchive := List (Except Failure ArchiveEntry)

namespace OpenArchive

/-- An archive that can be read throughout. -/
def ofEntries (entries : List ArchiveEntry) : OpenArchive := entries.map .ok

/-- Works on every entry as soon as it is read. -/
def forEntries {α : Type} (archive : OpenArchive) (work : ArchiveEntry → Except Failure α) :
    Except Failure (List α) :=
  archive.mapM fun entry => entry.bind work

/-- All entries, if each can be read. -/
def entries (archive : OpenArchive) : Except Failure (List ArchiveEntry) :=
  archive.forEntries .ok

end OpenArchive

end JarRemap
