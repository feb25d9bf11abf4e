import JarRemap.Access.Ledger
import JarRemap.Access.Matching
import JarRemap.Access.MemberNames

/-!
# Rule sets

The rules that were loaded, in order, the table that their member names go through first, and the
ledger that says which of them ever changed anything.
-/

namespace JarRemap

structure RuleSet where
  names : MemberNames
  rules : List AccessRule
  ledger : Ledger
  /-- The files that were loaded, each under one path. -/
  sources : List String
deriving DecidableEq, Repr

/-- A line that holds no rule and is not blank either. -/
structure RuleLineFault where
  origin : LineOrigin
  text : String
  reason : RuleFault
deriving DecidableEq, Repr

def RuleLineFault.message (fault : RuleLineFault) : String :=
  let reason := fault.reason.message
  s!"{fault.origin.file}:{fault.origin.line}: invalid access transformer '{fault.text}': {reason}"

namespace RuleSet

def new (names : MemberNames) : RuleSet := ⟨names, [], .empty, []⟩

def owned (set : RuleSet) (owner : String) : List AccessRule :=
  set.rules.filter (·.owner == owner)

/-- The set with the rule of a line. -/
def added (set : RuleSet) (rule : AccessRule) (line : String) (origin : LineOrigin) : RuleSet :=
  let renamed := set.names.renameRule rule
  { set with
    rules := set.rules ++ [renamed]
    ledger := set.ledger.register renamed line origin }

/-- Loads the rule of a line, and says whether there was one. -/
def loadLine (line : String) (origin : LineOrigin) :
    ExceptT RuleLineFault (StateM RuleSet) Bool := do
  match AccessRule.parse line with
  | .error reason => throw ⟨origin, line, reason⟩
  | .ok none => return false
  | .ok (some rule) =>
    modify fun set => set.added rule line origin
    return true

/-- Loads the lines of a file from `number` on, behind the count of rules loaded so far. -/
def loadLines (file : String) (number loaded : Nat) :
    List String → ExceptT RuleLineFault (StateM RuleSet) Nat
  | [] => return loaded
  | line :: rest => do
    let isRule ← loadLine line ⟨file, number⟩
    loadLines file (number + 1) (if isRule then loaded + 1 else loaded) rest

/-- The rules for a class: those for its first name, then those for its current name if that is
another one. -/
def candidates (set : RuleSet) (first current : String) : List AccessRule :=
  set.owned first ++ if current = first then [] else set.owned current

/-- Applies the rules one after another and notes in the ledger what each of them did. The last part
says whether anything changed. -/
def applyAll : List AccessRule → TrackedClass → Ledger → TrackedClass × Ledger × Bool
  | [], tracked, ledger => (tracked, ledger, false)
  | rule :: rest, tracked, ledger =>
    match rule.apply tracked with
    | (tracked, none) => applyAll rest tracked ledger
    | (tracked, some changed) =>
      let (tracked, ledger, others) := applyAll rest tracked (ledger.note rule.key changed)
      (tracked, ledger, changed || others)

/-- Applies every rule for the class, and says whether anything changed. -/
def applyTo (set : RuleSet) (tracked : TrackedClass) :
    Except Fault (RuleSet × TrackedClass × Bool) := do
  let name ← tracked.current.name
  let (tracked, ledger, changed) :=
    applyAll (set.candidates tracked.first.name name) tracked set.ledger
  return ({ set with ledger := ledger }, tracked, changed)

end RuleSet

end JarRemap
