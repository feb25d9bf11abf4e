import JarRemap.Access.Document
import JarRemap.Path
import JarRemap.Stage

/-!
# Reports

What a run tells about itself: where the result is, what each stage did, and what became of every
access rule.
-/

namespace JarRemap

structure RunReport where
  output : Path
  isClean : Bool
  /-- Nothing was done, since an earlier result was still good. -/
  fromCache : Bool
  fingerprint : Option String
  stages : List StageStats
  rules : List RuleRecord
  brokenRules : Nat
  /-- Records about nested classes into which an access rule was merged. -/
  innerClassUpdates : Nat
deriving DecidableEq, Repr

namespace RunReport

def toJson (report : RunReport) : Json :=
  .record [("output", some (.text report.output.text)), ("clean", some (.bool report.isClean)),
    ("from_cache", some (.bool report.fromCache)),
    ("fingerprint", report.fingerprint.map .text),
    ("stages", some (.array (report.stages.map StageStats.toJson))),
    ("rules", some (.array (report.rules.map RuleRecord.toJson))),
    ("broken_rules", some (.ofNat report.brokenRules)),
    ("inner_class_updates", some (.ofNat report.innerClassUpdates))]

/-- The records of the rules that changed nothing. -/
def broken (report : RunReport) : List RuleRecord := report.rules.filter (!·.effective)

/-- The counts of a stage. -/
def stage? (report : RunReport) (name : String) : Option StageStats :=
  report.stages.find? (·.stage == name)

end RunReport

end JarRemap
