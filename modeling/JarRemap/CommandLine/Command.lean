import JarRemap.CommandLine.Arguments
import JarRemap.Run.Sources

/-!
# Commands

Three commands: `run` takes an archive through all stages, `strip` takes only the synthetic marks
off, and `inspect` shows a class. One flag is understood in front of a command and behind it.
-/

namespace JarRemap

/-- Why a command did not do what it was asked for. -/
inductive CommandFault
  | failure (cause : Failure)
  | missingArgument (name : String)
  | entryRequired (archive : String)
  | entryNotFound (archive entry : String)
  | file (fault : FileFault)
deriving DecidableEq, Repr

def CommandFault.message : CommandFault → String
  | failure cause => cause.message
  | missingArgument name => s!"missing required argument: --{name}"
  | entryRequired archive => s!"{archive} is an archive; pass --entry to pick a class"
  | entryNotFound archive entry => s!"no entry {entry} in {archive}"
  | file fault => s!"file error: {fault.message}"

/-- What the program ends with after a fault. -/
def CommandFault.exitCode : CommandFault → UInt32
  | failure .overflow => 101
  | _ => 1

inductive Command
  | run (arguments : Arguments)
  | strip (input output : Path) (asJson : Bool)
  | inspect (input : Path) (entry : Option String)
deriving DecidableEq, Repr

namespace OptionSpec

def flag (name : String) : OptionSpec := ⟨name, none, .absent, false⟩

def onePath (name : String) : OptionSpec := ⟨name, none, .path, false⟩

def paths (name : String) : OptionSpec := ⟨name, none, .path, true⟩

def oneText (name : String) : OptionSpec := ⟨name, none, .text, false⟩

end OptionSpec

namespace Command

open OptionSpec (flag onePath paths oneText)

def verbose : OptionSpec := ⟨"verbose", some 'v', .absent, false⟩

def runOptions : List OptionSpec :=
  [onePath "config", onePath "input", onePath "mapping", paths "rename-csv", paths "clean-at",
    paths "at", onePath "descriptor", onePath "output", onePath "output-dirty",
    flag "strip-synthetics", flag "no-fail-on-broken", oneText "target-version", flag "no-cache",
    onePath "emit-descriptor", onePath "emit"]

def stripOptions : List OptionSpec := [⟨"output", some 'o', .path, false⟩, flag "json"]

def inspectOptions : List OptionSpec := [oneText "entry"]

/-- The arguments of the command `run` alone. -/
def readRun (given : List String) : Except Refusal Arguments := Arguments.read runOptions 0 given

/-- What stands behind the name of a command, with the options of every command. -/
def readBehind (specs : List OptionSpec) (limit : Nat) (given : List String) :
    Except Refusal Arguments :=
  Arguments.read (verbose :: specs) limit given

def commandNames : List String := ["run", "strip", "inspect", "help"]

/-- Help for everything or for one command. -/
def helpFor : List String → Refusal
  | [] => .help
  | [name] => if name ∈ commandNames then .help else .usage
  | _ => .usage

/-- The command of this name, and whether it is to be verbose. -/
def named (name : String) (given : List String) : Except Refusal (Command × Bool) := do
  match name with
  | "run" =>
    let arguments ← readBehind runOptions 0 given
    return (.run arguments, arguments.has verbose.name)
  | "strip" =>
    let arguments ← readBehind stripOptions 1 given
    match arguments.operands, arguments.value? "output" with
    | [input], some output =>
      return (.strip ⟨input⟩ ⟨output⟩ (arguments.has "json"), arguments.has verbose.name)
    | _, _ => throw .usage
  | "inspect" =>
    let arguments ← readBehind inspectOptions 1 given
    match arguments.operands with
    | [input] =>
      return (.inspect ⟨input⟩ (arguments.value? "entry"), arguments.has verbose.name)
    | _ => throw .usage
  | "help" => throw (helpFor given)
  | _ => throw .usage

/-- The command that the arguments ask for, and whether it is to be verbose. -/
def read (given : List String) : Except Refusal (Command × Bool) := do
  match ← Arguments.readOptions [verbose] given.length .empty given with
  | (before, .operand name rest) =>
    let (command, isVerbose) ← named name rest
    return (command, isVerbose || before.has verbose.name)
  | _ => throw .usage

end Command

namespace RunConfig

/-- The configuration with what the arguments say in place of it or in addition to it. -/
def overridden (config : RunConfig) (arguments : Arguments) : RunConfig :=
  let path? name := (arguments.value? name).map Path.mk
  let paths name := (arguments.values name).map Path.mk
  { input := (path? "input").getD config.input
    mapping := (path? "mapping").getD config.mapping
    memberNames := config.memberNames ++ paths "rename-csv"
    ownRules := config.ownRules ++ paths "clean-at"
    customRules := config.customRules ++ paths "at"
    descriptor := (path? "descriptor").or config.descriptor
    cleanOutput := (path? "output").getD config.cleanOutput
    dirtyOutput := (path? "output-dirty").or config.dirtyOutput
    stripsSynthetics := config.stripsSynthetics || arguments.has "strip-synthetics"
    failsOnBrokenRules := config.failsOnBrokenRules && !arguments.has "no-fail-on-broken"
    usesCache := config.usesCache && !arguments.has "no-cache"
    targetVersion := (arguments.value? "target-version").or config.targetVersion
    emittedDescriptor := (path? "emit-descriptor").or config.emittedDescriptor }

/-- What no run can do without has to come from somewhere. -/
def checkGiven (config : RunConfig) : Except CommandFault Unit :=
  if config.input.text.isEmpty then .error (.missingArgument "input")
  else if config.mapping.text.isEmpty then .error (.missingArgument "mapping")
  else if config.cleanOutput.text.isEmpty then .error (.missingArgument "output")
  else .ok ()

/-- The configuration file if there is one, with the arguments on top. -/
def ofArguments (tree : FileTree) (arguments : Arguments) : Except CommandFault RunConfig := do
  let base ← match arguments.value? "config" with
    | some path => (load tree ⟨path⟩).mapError .failure
    | none => pure {}
  let config := base.overridden arguments
  config.checkGiven
  return config

end RunConfig

namespace Arguments

/-- Where the report of a run goes. -/
def reportPath (arguments : Arguments) : Option Path := (arguments.value? "emit").map Path.mk

end Arguments

end JarRemap
