import JarRemap.Pass
import JarRemap.Stage

/-!
# The stage that renames and applies access rules

All classes are read before the first one is changed, since members are looked up in the hierarchy
of the whole archive. An entry that is named after its class moves along with it.
-/

namespace JarRemap.Stage.Remap

def name : String := "remap"

/-- An entry with its class, if it holds one. -/
abbrev Loaded := ArchiveEntry × Option TrackedClass

def load (entry : ArchiveEntry) : Except Failure Loaded := do
  if entry.isClass then
    let file ← Failure.ofFault (ClassFile.decode entry.data)
    let tracked ← Failure.ofFault (TrackedClass.ofClass file)
    return (entry, some tracked)
  else
    return (entry, none)

def hierarchyOf (loaded : List Loaded) : Except Failure Hierarchy :=
  Failure.ofFault <| (loaded.filterMap Prod.snd).foldlM
    (fun hierarchy tracked => hierarchy.insertClass tracked.current) .empty

/-- The entries as they were read, and the hierarchy of all their classes. -/
def loadAll (entries : List ArchiveEntry) : Except Failure (List Loaded × Hierarchy) := do
  let loaded ← entries.mapM load
  return (loaded, ← hierarchyOf loaded)

/-- The name of an entry whose class was changed. It changes only if it was made of the name that the
class had. -/
def entryName (entry : ArchiveEntry) (tracked : TrackedClass) : Except Failure String := do
  if entry.name = tracked.first.name ++ ArchiveEntry.classSuffix then
    let name ← Failure.ofFault tracked.current.name
    return name ++ ArchiveEntry.classSuffix
  else
    return entry.name

/-- The entry with its class written anew. -/
def written (entry : ArchiveEntry) (tracked : TrackedClass) : Except Failure ArchiveEntry := do
  let data ← Failure.ofFault tracked.current.encode
  return { entry with name := ← entryName entry tracked, data := data }

/-- Work on classes that leaves a trace in the ledger of the rules, even if it fails. -/
abbrev Ruling := ExceptT Failure (StateM RuleSet)

/-- Renames everything in the class and applies the rules for it. -/
def remapClass (symbols : SymbolMap) (tracked : TrackedClass) :
    Ruling (TrackedClass × Bool) := ExceptT.mk fun rules =>
  match (Transform.applyAll symbols [.remap, .access]).run.run ⟨tracked, rules⟩ with
  | (.ok changed, bench) => (.ok (bench.tracked, changed), bench.rules)
  | (.error fault, bench) => (.error (.classFile fault), bench.rules)

def remapEntry (symbols : SymbolMap) : Loaded → Ruling (ArchiveEntry × EntryFate)
  | (entry, none) => return (entry, .copied)
  | (entry, some tracked) => do
    let (tracked, changed) ← remapClass symbols tracked
    let entry ← liftM (written entry tracked)
    return (entry, .ofChange changed)

def remapAll (table : MappingTable) (loaded : List Loaded) (hierarchy : Hierarchy) :
    Ruling (List ArchiveEntry × StageStats) := do
  let staged ← loaded.mapM (remapEntry ⟨table, hierarchy⟩)
  return Staged.counted name staged

def run (table : MappingTable) (entries : List ArchiveEntry) :
    Ruling (List ArchiveEntry × StageStats) := do
  let (loaded, hierarchy) ← liftM (loadAll entries)
  remapAll table loaded hierarchy

end JarRemap.Stage.Remap
