import JarRemap.Proofs.FileTree.Change
import JarRemap.Proofs.FileTree.Read
import JarRemap.Proofs.Run.Message
import JarRemap.Run

/-!
# What a run makes of its files

All that goes into the archive is worked out before any file changes, from the configuration and the
input files. In two trees with the same input files it comes out the same.
-/

namespace JarRemap

open FileTree

namespace Run

/-- What is worked out before the last stages. -/
structure Plan where
  entries : List ArchiveEntry
  remapStats : StageStats
  outcome : RuleOutcome
  table : StructureTable
  updates : Nat

def plan (config : RunConfig) (tree : FileTree) : Except Failure Plan := do
  let sources ← loadSources config tree
  let (entries, remapStats, rules) ← remapInput config sources tree
  let outcome := rules.ledger.outcome
  checkBroken config outcome
  let (table, updates) ← mergedDescriptor config rules.rules tree
  return ⟨entries, remapStats, outcome, table, updates⟩

/-- The entries of the archive that the last stages make, and their counts. -/
def packed (injector : Injector) (config : RunConfig) (plan : Plan) :
    Except Failure (List ArchiveEntry × List StageStats) := do
  let (entries, injectStats) ← (injector.inject plan.table
    (ParameterNames.areWanted config.targetVersion) (.ofEntries plan.entries)).mapError
      (Failure.ofInjector injector.name)
  if config.stripsSynthetics then
    let (entries, stripStats) ← Stage.Strip.run (.ofEntries (entries.map ArchiveEntry.stored))
    return (entries, [injectStats, stripStats])
  else
    return (entries, [injectStats])

/-- The entries of the archive that a run makes of the files in a tree. -/
def result (injector : Injector) (config : RunConfig) (tree : FileTree) :
    Except Failure (List ArchiveEntry) := do
  return (← packed injector config (← plan config tree)).1

end Run

/-! ## The same files -/

/-- A file with the same bytes is read under the path in both trees. -/
def SameFile (tree other : FileTree) (path : Path) : Prop :=
  ∃ content found, tree.read path = .ok content ∧ other.read path = .ok found ∧
    found.data = content.data

/-- The same archive is read, entry by entry. -/
def SameArchive (tree other : FileTree) (path : Path) : Prop :=
  ∃ content found, tree.read path = .ok content ∧ other.read path = .ok found ∧
    found.entries? = content.entries?

section

variable {tree other : FileTree} {path : Path}

theorem contentAt_of_read {content : FileContent} (read : tree.read path = .ok content) :
    tree.contentAt path = .ok content := by
  rw [contentAt, read]
  rfl

/-- A file of UTF-8 has a text. -/
theorem textAt_of_read {content : FileContent} (read : tree.read path = .ok content) {text : String}
    (spelled : String.fromUTF8? (ByteArray.mk content.data.toArray) = some text) :
    tree.textAt path = .ok text := by
  refine (bind_ok_iff _ _ _).mpr ⟨content.data, ?_, ?_⟩
  · rw [FileTree.bytesAt, contentAt_of_read read]
    rfl
  · rw [spelled]
    rfl

theorem SameFile.bytesAt (same : SameFile tree other path) :
    other.bytesAt path = tree.bytesAt path := by
  obtain ⟨content, found, read, readOther, data⟩ := same
  rw [FileTree.bytesAt, FileTree.bytesAt, contentAt_of_read read, contentAt_of_read readOther]
  exact congrArg Except.ok data

theorem SameFile.textAt (same : SameFile tree other path) : other.textAt path = tree.textAt path := by
  rw [FileTree.textAt, FileTree.textAt, same.bytesAt]

theorem SameArchive.archiveAt (same : SameArchive tree other path) :
    other.archiveAt path = tree.archiveAt path := by
  obtain ⟨content, found, read, readOther, entries⟩ := same
  obtain ⟨place, located⟩ := (read_ok_iff _ _ _).mp read
  obtain ⟨_, locatedOther⟩ := (read_ok_iff _ _ _).mp readOther
  simp only [FileTree.archiveAt, openAt, located, locatedOther, entries]

theorem SameFile.canonical (same : SameFile tree other path) (here : other.here = tree.here) :
    other.canonical path = tree.canonical path := by
  obtain ⟨content, found, read, readOther, -⟩ := same
  rw [canonical_of_read read, canonical_of_read readOther, here]

/-- The file is also the same under the one path to it. -/
theorem SameFile.source (same : SameFile tree other path) (here : other.here = tree.here)
    (rooted : tree.Rooted) (rootedOther : other.Rooted) {source : Path}
    (canonical : tree.canonical path = .ok source) : SameFile tree other source := by
  obtain ⟨content, found, read, readOther, data⟩ := same
  rw [canonical_of_read read] at canonical
  split at canonical
  · cases canonical
  next short =>
    obtain rfl := Except.ok.inj canonical
    refine ⟨content, found, rooted.read_pathTo read (by omega), ?_, data⟩
    have readSource := rootedOther.read_pathTo readOther
    rw [here] at readSource
    exact readSource (by omega)

end

theorem forM_congr {α : Type} {m : Type → Type} [Monad m] {items : List α} {step other : α → m PUnit}
    (same : ∀ item ∈ items, step item = other item) : items.forM step = items.forM other := by
  induction items with
  | nil => rfl
  | cons item items ih =>
    rw [List.forall_mem_cons] at same
    rw [List.forM, List.forM, same.1, ih same.2]

/-- Two trees in which a configuration finds the same files. -/
structure SameInputs (config : RunConfig) (tree other : FileTree) : Prop where
  here : other.here = tree.here
  rooted : tree.Rooted
  rootedOther : other.Rooted
  files : ∀ path ∈ config.inputFiles, SameFile tree other path
  archive : SameArchive tree other config.input

/-- Its bytes tell what the archive holds. -/
def FileContent.Plain (content : FileContent) : Prop :=
  content.entries? = Container.decode? content.data

open Fingerprint (inputContents)

theorem inputContents_files {tree : FileTree} {config : RunConfig} {contents : List (Path × Bytes)}
    (found : inputContents tree config = .ok contents) :
    contents.map Prod.fst = config.inputFiles := by
  obtain ⟨data, read, rfl⟩ := Fingerprint.inputContents_ok_iff.mp found
  exact List.map_fst_zip read.length_eq.le

/-- The input files whose contents are known can be read. -/
theorem reads_of_inputContents {tree : FileTree} {config : RunConfig} {contents : List (Path × Bytes)}
    (found : inputContents tree config = .ok contents) :
    ∀ path ∈ config.inputFiles, ∃ content, tree.read path = .ok content := by
  intro path member
  obtain ⟨_, each⟩ := (exists_mapM_ok_iff _ _).mp ⟨contents, found⟩ path member
  obtain ⟨data, given, -⟩ := (bind_ok_iff _ _ _).mp each
  rw [FileTree.bytesAt, FileTree.contentAt] at given
  cases read : tree.read path with
  | error fault =>
    rw [read] at given
    cases given
  | ok content => exact ⟨content, rfl⟩

/-- Where the same contents are found, each input file is the same. -/
theorem sameFile_of_inputContents {tree other : FileTree} {config : RunConfig}
    {contents : List (Path × Bytes)} (found : inputContents tree config = .ok contents)
    (foundOther : inputContents other config = .ok contents) :
    ∀ path ∈ config.inputFiles, SameFile tree other path := by
  intro path member
  obtain ⟨content, read⟩ := reads_of_inputContents found path member
  obtain ⟨content', readOther⟩ := reads_of_inputContents foundOther path member
  refine ⟨content, content', read, readOther, ?_⟩
  have bytes {tree : FileTree} {content : FileContent} (read : tree.read path = .ok content) :
      tree.bytesAt path = .ok content.data := by
    rw [FileTree.bytesAt, contentAt_of_read read]
    rfl
  rw [inputContents, mapM_ok_iff] at found foundOther
  -- The contents are listed in the order of the files, so those of this file stand at its position.
  obtain ⟨position, here⟩ := List.mem_iff_getElem?.mp member
  obtain ⟨file, listed, given⟩ := forall₂_getElem? found here
  obtain ⟨file', listed', given'⟩ := forall₂_getElem? foundOther here
  rw [bytes read] at given
  rw [bytes readOther] at given'
  have given : file = (path, content.data) := (Except.ok.inj given).symm
  have given' : file' = (path, content'.data) := (Except.ok.inj given').symm
  rw [listed, given, given', Option.some.injEq, Prod.mk.injEq] at listed'
  exact listed'.2.symm

/-- Changes elsewhere leave the inputs as they are. -/
theorem sameInputs_of_confined {config : RunConfig} {places : Set Place} {tree other : FileTree}
    (confined : Confined places tree other) (rooted : tree.Rooted)
    (reads : ∀ path ∈ config.inputFiles, ∃ content, tree.read path = .ok content)
    (outside : ∀ path ∈ config.inputFiles, placeOf tree.here path ∉ places) :
    SameInputs config tree other := by
  have both : ∀ path ∈ config.inputFiles, ∃ content,
      tree.read path = .ok content ∧ other.read path = .ok content := fun path member =>
    let ⟨content, there⟩ := reads path member
    ⟨content, there, confined.read there (outside path member)⟩
  refine ⟨confined.here, rooted, confined.rooted rooted, fun path member => ?_, ?_⟩
  · obtain ⟨content, read, readOther⟩ := both path member
    exact ⟨content, content, read, readOther, rfl⟩
  · obtain ⟨content, read, readOther⟩ := both config.input (by simp [RunConfig.inputFiles])
    exact ⟨content, content, read, readOther, rfl⟩

/-- Trees in which the same contents are found have the same inputs. -/
theorem sameInputs_of_contents {config : RunConfig} {tree other : FileTree}
    (here : other.here = tree.here) (rooted : tree.Rooted) (rootedOther : other.Rooted)
    {contents : List (Path × Bytes)} (found : inputContents tree config = .ok contents)
    (foundOther : inputContents other config = .ok contents)
    (plain : ∀ content, tree.read config.input = .ok content → content.Plain)
    (plainOther : ∀ content, other.read config.input = .ok content → content.Plain) :
    SameInputs config tree other := by
  have files := sameFile_of_inputContents found foundOther
  refine ⟨here, rooted, rootedOther, files, ?_⟩
  obtain ⟨content, content', read, readOther, data⟩ :=
    files config.input (by simp [RunConfig.inputFiles])
  refine ⟨content, content', read, readOther, ?_⟩
  rw [plain content read, plainOther content' readOther, data]

namespace SameInputs

variable {config : RunConfig} {tree other : FileTree} (same : SameInputs config tree other)

include same

theorem loadNames :
    MemberNames.load other config.memberNames = MemberNames.load tree config.memberNames := by
  have each : ∀ path ∈ config.memberNames,
      MemberNames.addFile other path = MemberNames.addFile tree path := fun path member => by
    have file := same.files path (by simp [RunConfig.inputFiles, member])
    rw [MemberNames.addFile, MemberNames.addFile, file.textAt]
  rw [MemberNames.load, MemberNames.load, forM_congr fun path member => by rw [each path member]]

theorem loadFile {path : Path} (member : path ∈ config.ruleFiles) :
    RuleSet.loadFile other path = RuleSet.loadFile tree path := by
  have file := same.files path (by
    simp only [RunConfig.inputFiles, List.mem_append]
    exact .inl (.inr member))
  rw [RuleSet.loadFile, RuleSet.loadFile, file.canonical same.here]
  cases canonical : tree.canonical path with
  | error fault => rfl
  | ok source =>
    -- A rule file is read under its one path, which leads to the same file.
    have text := (file.source same.here same.rooted same.rootedOther canonical).textAt
    have found : (liftM ((Except.ok source).mapError (Failure.file path.text)) :
        ExceptT Failure (StateM RuleSet) Path) = pure source := rfl
    rw [found, pure_bind, pure_bind, text]

theorem loadRules (names : MemberNames) :
    RuleSet.load other names config.ruleFiles = RuleSet.load tree names config.ruleFiles := by
  rw [RuleSet.load, RuleSet.load, forM_congr fun path member => by rw [same.loadFile member]]

theorem loadSources : Run.loadSources config other = Run.loadSources config tree := by
  have mapping : MappingTable.load other config.mapping = MappingTable.load tree config.mapping := by
    rw [MappingTable.load, MappingTable.load,
      (same.files config.mapping (by simp [RunConfig.inputFiles])).textAt]
  simp only [Run.loadSources, mapping, same.loadNames, same.loadRules]

theorem mergedDescriptor (rules : List AccessRule) :
    Run.mergedDescriptor config rules other = Run.mergedDescriptor config rules tree := by
  rw [Run.mergedDescriptor, Run.mergedDescriptor]
  cases given : config.descriptor with
  | none => rfl
  | some path =>
    have file := same.files path (by simp [RunConfig.inputFiles, given])
    simp only [StructureTable.load, file.textAt]

theorem plan : Run.plan config other = Run.plan config tree := by
  simp only [Run.plan, Run.remapInput, same.loadSources, same.archive.archiveAt,
    same.mergedDescriptor]

/-- The same archive comes out of the same files. -/
theorem result (injector : Injector) :
    Run.result injector config other = Run.result injector config tree := by
  rw [Run.result, Run.result, same.plan]

end SameInputs

end JarRemap
