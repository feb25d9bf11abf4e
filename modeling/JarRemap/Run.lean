import JarRemap.Run.Fingerprint
import JarRemap.Run.Report
import JarRemap.Run.Sources
import JarRemap.Stage.Inject
import JarRemap.Stage.Remap
import JarRemap.Stage.Strip
import JarRemap.Structure.Rules

/-!
# Runs

A run takes an archive through all stages: classes are renamed and opened up, get their structural
metadata back, and lose their synthetic marks if that is asked for. The archives between the stages
are never seen from outside.

A clean run leaves a fingerprint beside its result. Before anything else is done, the fingerprint of
the last run is removed, so a run that fails is never taken for a good one.
-/

namespace JarRemap

/-- What puts structural metadata back into all classes of an archive. -/
structure Injector where
  name : String
  inject : StructureTable → Bool → OpenArchive →
    Except Failure (List ArchiveEntry × StageStats)

/-- The injector that changes the attributes of the classes. -/
def Injector.attributes : Injector := ⟨Stage.Inject.name, Stage.Inject.run⟩

namespace Run

/-- What a run works with. -/
structure Sources where
  table : MappingTable
  rules : RuleSet
deriving DecidableEq, Repr

def loadSources (config : RunConfig) (tree : FileTree) : Except Failure Sources := do
  let table ← MappingTable.load tree config.mapping
  let names ← MemberNames.load tree config.memberNames
  let rules ← RuleSet.load tree names config.ruleFiles
  return ⟨table, rules⟩

/-- The entries, the counts, and the rules with what is known about them after the first stage. -/
def remapInput (config : RunConfig) (sources : Sources) (tree : FileTree) :
    Except Failure (List ArchiveEntry × StageStats × RuleSet) := do
  let entries ← tree.archiveAt config.input
  match (Stage.Remap.run sources.table entries).run.run sources.rules with
  | (.ok (entries, stats), rules) => return (entries.map ArchiveEntry.stored, stats, rules)
  | (.error failure, _) => throw failure

/-- Rules that changed nothing are an error, unless they are accepted. -/
def checkBroken (config : RunConfig) (outcome : RuleOutcome) : Except Failure Unit :=
  if !outcome.broken.isEmpty && config.failsOnBrokenRules then .error (.brokenRules outcome.broken)
  else .ok ()

/-- The descriptor with the access rules merged into it, and how many records that changed. -/
def mergedDescriptor (config : RunConfig) (rules : List AccessRule) (tree : FileTree) :
    Except Failure (StructureTable × Nat) := do
  let table ← match config.descriptor with
    | some path => StructureTable.load tree path
    | none => pure .empty
  match (StructureTable.applyRules rules).run.run table with
  | (.ok count, table) => return (table, count)
  | (.error failure, _) => throw failure

def emitDescriptor (config : RunConfig) (table : StructureTable) : FileAction Unit :=
  match config.emittedDescriptor with
  | some path => FileAction.writeText path table.print
  | none => return ()

/-- The last stages, and their counts. Whatever happens while metadata is put back is the injector's
failure. -/
def finishStages (injector : Injector) (config : RunConfig) (table : StructureTable)
    (entries : List ArchiveEntry) : FileAction (List StageStats) := do
  let generates := ParameterNames.areWanted config.targetVersion
  let injected := injector.inject table generates (.ofEntries entries)
  if config.stripsSynthetics then
    let (entries, injectStats) ← liftM (injected.mapError (Failure.ofInjector injector.name))
    let stripStats ← ArchiveDraft.publish config.output
      (Stage.Strip.run (.ofEntries (entries.map ArchiveEntry.stored)))
    return [injectStats, stripStats]
  else
    let injectStats ←
      ExceptT.adapt (Failure.ofInjector injector.name) (ArchiveDraft.publish config.output injected)
    return [injectStats]

/-- The report of a run that finds its result already there. -/
def cachedReport (config : RunConfig) (fingerprint : String) : RunReport :=
  ⟨config.output, config.isClean, true, some fingerprint, [], [], 0, 0⟩

/-- Runs all stages, whatever was there before. -/
def produce (injector : Injector) (config : RunConfig) (fingerprint : Option String) :
    FileAction RunReport := do
  Fingerprint.invalidate config.output
  let sources ← FileAction.read (loadSources config)
  let (entries, remapStats, rules) ← FileAction.read (remapInput config sources)
  let outcome := rules.ledger.outcome
  liftM (checkBroken config outcome)
  let (table, updates) ← FileAction.read (mergedDescriptor config rules.rules)
  emitDescriptor config table
  let stages ← finishStages injector config table entries
  match fingerprint with
  | some fingerprint => Fingerprint.store config.output fingerprint
  | none => pure ()
  return ⟨config.output, config.isClean, false, fingerprint, remapStats :: stages,
    outcome.records, outcome.brokenCount, updates⟩

/-- The fingerprint of a run, if it is one that may be left out. -/
def fingerprint? (config : RunConfig) (tree : FileTree) : Except Failure (Option String) :=
  if config.isClean && config.usesCache then some <$> Fingerprint.compute tree config
  else .ok none

def runWith (injector : Injector) (config : RunConfig) : FileAction RunReport := do
  liftM config.validate
  let fingerprint ← FileAction.read (fingerprint? config)
  match fingerprint with
  | some print =>
    if Fingerprint.isFresh (← get) config.output print then return cachedReport config print
    else produce injector config fingerprint
  | none => produce injector config fingerprint

def run (config : RunConfig) : FileAction RunReport := runWith .attributes config

end Run

end JarRemap
