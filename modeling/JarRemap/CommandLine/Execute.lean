import JarRemap.ClassFile.Document
import JarRemap.CommandLine.Command
import JarRemap.Run

/-!
# Executing commands

What a command does to the files and what it prints. Lines that were printed before a command failed
stay printed.
-/

namespace JarRemap

/-- The files, and the lines printed so far, latest first. -/
structure Console where
  tree : FileTree
  printed : List String
deriving DecidableEq, Repr

abbrev Execution := ExceptT CommandFault (StateM Console)

namespace Console

/-- Everything that was printed. -/
def output (console : Console) : String :=
  String.join (console.printed.reverse.map fun line => line ++ "\n")

end Console

namespace Execution

def print (line : String) : Execution Unit :=
  modify fun console => { console with printed := line :: console.printed }

/-- Works on the files. -/
def ofAction {α : Type} (action : FileAction α) : Execution α := ExceptT.mk fun console =>
  let (outcome, tree) := action.run.run console.tree
  (outcome.mapError .failure, { console with tree := tree })

end Execution

/-- Text in a column of `width` characters, at its right edge. -/
def alignRight (width : Nat) (text : String) : String :=
  String.ofList (List.replicate (width - text.length) ' ') ++ text

namespace StageStats

/-- The counts as a line of the summary of a run. -/
def line (stats : StageStats) : String :=
  let stage := alignRight 8 stats.stage
  s!"{stage}: {stats.entriesRead} entries, {stats.classesChanged} classes changed, {stats.entriesCopied} copied"

/-- The counts of a stage that was run on its own. -/
def summary (stats : StageStats) (output : Path) : String :=
  s!"Stripped {stats.classesChanged} classes ({stats.entriesRead} entries, {stats.entriesCopied} copied) into {output.text}"

end StageStats

namespace RunReport

def lines (report : RunReport) : List String :=
  if report.fromCache then [s!"Up to date: {report.output.text}"]
  else
    let kind := if report.isClean then "clean" else "dirty"
    report.stages.map StageStats.line ++
      [s!"Wrote {report.output.text} ({kind}, {report.rules.length} rules, {report.brokenRules} broken)"]

end RunReport

/-- A class for the eye: its names, flags and members. -/
structure ClassSummary where
  name : String
  superName : Option String
  interfaces : List String
  access : AccessFlags
  major : UInt16
  minor : UInt16
  members : List MemberView
deriving DecidableEq, Repr

namespace ClassSummary

def ofClass (file : ClassFile) : Except Fault ClassSummary := do
  let name ← file.name
  let superName ← file.superName
  let interfaces ← file.interfaceNames
  let members ← file.memberViews
  return ⟨name, superName, interfaces, file.access, file.major, file.minor, members⟩

def version (summary : ClassSummary) : String :=
  toString summary.major.toNat ++ "." ++ toString summary.minor.toNat

def toJson (summary : ClassSummary) : Json :=
  .record [("name", some (.text summary.name)),
    ("super_name", some (.textOrNull summary.superName)),
    ("interfaces", some (.ofTexts summary.interfaces)),
    ("access", some (.text summary.access.text)), ("version", some (.text summary.version)),
    ("members", some (.array (summary.members.map MemberView.toJson)))]

end ClassSummary

namespace Command

/-- Writes the report of a run if that was asked for. -/
def emitReport (report : RunReport) : Option Path → Execution Unit
  | none => return ()
  | some path => do
    let document := FileContent.bytes report.toJson.pretty.toUTF8.toList
    match (← get).tree.write path document with
    | .ok tree =>
      modify fun console => { console with tree := tree }
      Execution.print s!"Wrote run report to {path.text}"
    | .error fault => throw (.file fault)

def executeRun (arguments : Arguments) : Execution Unit := do
  let config ← liftM (RunConfig.ofArguments (← get).tree arguments)
  let report ← Execution.ofAction (Run.run config)
  report.lines.forM Execution.print
  emitReport report arguments.reportPath

def executeStrip (input output : Path) (asJson : Bool) : Execution Unit := do
  let stats ← Execution.ofAction do
    let archive ← FileAction.read (·.openAt input)
    ArchiveDraft.publish output (Stage.Strip.run archive)
  Execution.print (if asJson then stats.toJson.pretty else stats.summary output)

/-- File name extensions of archives. -/
def archiveExtensions : List String := ["jar", "zip"]

def isArchivePath (path : Path) : Bool :=
  match path.extension? with
  | some extension => String.ofList extension ∈ archiveExtensions
  | none => false

/-- The name of the entry that holds the class. -/
def wantedEntry (entry : String) : String :=
  if ArchiveEntry.isClassName entry then entry else entry ++ ArchiveEntry.classSuffix

/-- The bytes of the class to be shown: those of a file, or those of an entry of an archive. -/
def classBytes (tree : FileTree) (input : Path) : Option String → Except CommandFault Bytes
  | none =>
    if isArchivePath input then .error (.entryRequired input.text)
    else ((tree.read input).map FileContent.data).mapError .file
  | some entry => do
    let entries ← (tree.archiveAt input).mapError .failure
    match entries.find? (·.name == wantedEntry entry) with
    | some found => return found.data
    | none => throw (.entryNotFound input.text (wantedEntry entry))

def executeInspect (input : Path) (entry : Option String) : Execution Unit := do
  let data ← liftM (classBytes (← get).tree input entry)
  let summary ← liftM <| ((ClassFile.decode data).bind ClassSummary.ofClass).mapError fun fault =>
    CommandFault.failure (.classFile fault)
  Execution.print summary.toJson.pretty

def execute : Command → Execution Unit
  | .run arguments => executeRun arguments
  | .strip input output asJson => executeStrip input output asJson
  | .inspect input entry => executeInspect input entry

end Command

end JarRemap
