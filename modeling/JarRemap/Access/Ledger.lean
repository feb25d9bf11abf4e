import JarRemap.Access.Rule

/-!
# The ledger of rules

For every target of a loaded rule, the ledger holds where it was first seen and whether a rule for
it ever changed an access value. A rule that never did so is broken: it does nothing for anybody.
-/

namespace JarRemap

/-- The place of a line. -/
structure LineOrigin where
  file : String
  line : Nat
deriving DecidableEq, Repr

structure RuleRecord where
  key : String
  /-- The line as it was written, without the blanks around it. -/
  rawText : String
  effective : Bool
  origin : LineOrigin
deriving DecidableEq, Repr

/-- What became of every rule. -/
structure RuleOutcome where
  records : List RuleRecord
deriving DecidableEq, Repr

namespace RuleOutcome

def broken (outcome : RuleOutcome) : List RuleRecord := outcome.records.filter (!·.effective)

def brokenCount (outcome : RuleOutcome) : Nat := outcome.records.countP (!·.effective)

/-- Every rule changed something. -/
def isClean (outcome : RuleOutcome) : Bool := outcome.brokenCount == 0

end RuleOutcome

structure Ledger where
  /-- In the order in which the keys were first seen. -/
  records : List RuleRecord
deriving DecidableEq, Repr

namespace Ledger

def empty : Ledger := ⟨[]⟩

def hasKey (ledger : Ledger) (key : String) : Bool := ledger.records.any (·.key == key)

/-- Adds a record for the rule, unless its key has one already. -/
def register (ledger : Ledger) (rule : AccessRule) (line : String) (origin : LineOrigin) :
    Ledger :=
  if ledger.hasKey rule.key then ledger
  else
    ⟨ledger.records ++ [⟨rule.key, String.ofList (Text.trim line.toList), false, origin⟩]⟩

/-- Notes an application of a rule. A rule that has changed something stays effective. -/
def note (ledger : Ledger) (key : String) (changed : Bool) : Ledger :=
  ⟨ledger.records.map fun record =>
    if changed && record.key == key then { record with effective := true } else record⟩

/-- The records of the rules that changed nothing. -/
def broken (ledger : Ledger) : List RuleRecord := ledger.records.filter (!·.effective)

def outcome (ledger : Ledger) : RuleOutcome := ⟨ledger.records⟩

end Ledger

end JarRemap
