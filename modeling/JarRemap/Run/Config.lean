import JarRemap.Json.Record
import JarRemap.Failure
import JarRemap.Path

/-!
# Configurations

Everything that a run depends on. In JSON every field may be left out, and what is absent by default
is not written.

A run with access rules of the user's own is not clean, and goes to another archive than a clean
one.
-/

namespace JarRemap

structure RunConfig where
  input : Path := ⟨""⟩
  mapping : Path := ⟨""⟩
  /-- Tables of member names for the access rules. -/
  memberNames : List Path := []
  /-- Access rules that belong to the tool chain. -/
  ownRules : List Path := []
  /-- Access rules of the user. -/
  customRules : List Path := []
  descriptor : Option Path := none
  cleanOutput : Path := ⟨""⟩
  dirtyOutput : Option Path := none
  stripsSynthetics : Bool := false
  failsOnBrokenRules : Bool := true
  usesCache : Bool := true
  targetVersion : Option String := none
  /-- Where the descriptor goes after the access rules were merged into it. -/
  emittedDescriptor : Option Path := none
deriving DecidableEq, Repr

namespace RunConfig

open Json (asText asBool asList optional withDefault)

def pathJson (path : Path) : Json := .text path.text

def pathsJson (paths : List Path) : Json := .array (paths.map pathJson)

def asPath (json : Json) : Option Path := (asText json).map Path.mk

def toJson (config : RunConfig) : Json :=
  .record [("input", some (pathJson config.input)), ("mapping", some (pathJson config.mapping)),
    ("rename_csvs", some (pathsJson config.memberNames)),
    ("clean_access_transformers", some (pathsJson config.ownRules)),
    ("access_transformers", some (pathsJson config.customRules)),
    ("descriptor", config.descriptor.map pathJson),
    ("output_clean", some (pathJson config.cleanOutput)),
    ("output_dirty", config.dirtyOutput.map pathJson),
    ("strip_synthetics", some (.bool config.stripsSynthetics)),
    ("fail_on_broken_rules", some (.bool config.failsOnBrokenRules)),
    ("use_cache", some (.bool config.usesCache)),
    ("target_version", config.targetVersion.map .text),
    ("emit_descriptor", config.emittedDescriptor.map pathJson)]

def fieldNames : List String :=
  ["input", "mapping", "rename_csvs", "clean_access_transformers", "access_transformers",
    "descriptor", "output_clean", "output_dirty", "strip_synthetics", "fail_on_broken_rules",
    "use_cache", "target_version", "emit_descriptor"]

def ofJson? (json : Json) : Option RunConfig := do
  let fields ← json.fields? fieldNames
  let default : RunConfig := {}
  return {
    input := ← withDefault default.input asPath "input" fields
    mapping := ← withDefault default.mapping asPath "mapping" fields
    memberNames := ← withDefault [] (asList asPath) "rename_csvs" fields
    ownRules := ← withDefault [] (asList asPath) "clean_access_transformers" fields
    customRules := ← withDefault [] (asList asPath) "access_transformers" fields
    descriptor := ← optional asPath "descriptor" fields
    cleanOutput := ← withDefault default.cleanOutput asPath "output_clean" fields
    dirtyOutput := ← optional asPath "output_dirty" fields
    stripsSynthetics := ← withDefault default.stripsSynthetics asBool "strip_synthetics" fields
    failsOnBrokenRules :=
      ← withDefault default.failsOnBrokenRules asBool "fail_on_broken_rules" fields
    usesCache := ← withDefault default.usesCache asBool "use_cache" fields
    targetVersion := ← optional asText "target_version" fields
    emittedDescriptor := ← optional asPath "emit_descriptor" fields }

def read? (document : String) : Option RunConfig := (Json.read? document).bind ofJson?

def isClean (config : RunConfig) : Bool := config.customRules.isEmpty

/-- What tells the archive of a run that is not clean from that of a clean one. -/
def dirtyMark : String := "-dirty"

/-- The archive that the run makes. -/
def output (config : RunConfig) : Path :=
  if config.isClean then config.cleanOutput
  else config.dirtyOutput.getD (config.cleanOutput.markStem dirtyMark)

/-- The tool chain's own rules, then the user's. -/
def ruleFiles (config : RunConfig) : List Path := config.ownRules ++ config.customRules

/-- Every file whose contents the result depends on. -/
def inputFiles (config : RunConfig) : List Path :=
  [config.input, config.mapping] ++ config.memberNames ++ config.ruleFiles ++
    config.descriptor.toList

/-- What no run can do without has to be given. -/
def validate (config : RunConfig) : Except Failure Unit :=
  if config.input.text.isEmpty then .error (.configuration "no input archive configured")
  else if config.mapping.text.isEmpty then .error (.configuration "no mapping file configured")
  else if config.cleanOutput.text.isEmpty then
    .error (.configuration "no output archive configured")
  else .ok ()

end RunConfig

end JarRemap
