import JarRemap.ArchiveEntry
import JarRemap.ClassFile.Format
import JarRemap.Failure
import JarRemap.Json

/-!
# Stages

A stage takes the entries of an archive and gives one entry for each of them, in order. Most entries
are copied as they are; classes are read, changed and written.
-/

namespace JarRemap

/-- What became of an entry. -/
inductive EntryFate
  /-- Taken over without a look inside. -/
  | copied
  /-- A class that turned out to need no change. -/
  | kept
  | changed
deriving DecidableEq, Repr

namespace EntryFate

def ofChange (isChanged : Bool) : EntryFate := if isChanged then changed else kept

end EntryFate

structure StageStats where
  stage : String
  entriesRead : Nat
  classesChanged : Nat
  entriesCopied : Nat
deriving DecidableEq, Repr

namespace StageStats

def ofFates (stage : String) (fates : List EntryFate) : StageStats :=
  ⟨stage, fates.length, fates.count .changed, fates.count .copied⟩

def toJson (stats : StageStats) : Json :=
  .record [("stage", some (.text stats.stage)), ("entries_read", some (.ofNat stats.entriesRead)),
    ("classes_rewritten", some (.ofNat stats.classesChanged)),
    ("entries_copied", some (.ofNat stats.entriesCopied))]

end StageStats

/-- The entries of an archive after a stage, each with what became of it. -/
abbrev Staged := List (ArchiveEntry × EntryFate)

namespace Staged

def stats (stage : String) (staged : Staged) : StageStats := .ofFates stage (staged.map Prod.snd)

/-- The entries, and the counts for the stage. -/
def counted (stage : String) (staged : Staged) : List ArchiveEntry × StageStats :=
  (staged.map Prod.fst, stats stage staged)

end Staged

namespace ArchiveEntry

/-- Reads the class of an entry, changes it and writes it back, and says whether it changed. -/
def changeClass (entry : ArchiveEntry) (change : ClassFile → Except Failure (ClassFile × Bool)) :
    Except Failure (ArchiveEntry × EntryFate) := do
  let file ← Failure.ofFault (ClassFile.decode entry.data)
  let (file, changed) ← change file
  let data ← Failure.ofFault file.encode
  return ({ entry with data := data }, .ofChange changed)

end ArchiveEntry

end JarRemap
