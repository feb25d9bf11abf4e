import JarRemap.Access.RuleSet
import JarRemap.Remap
import JarRemap.Synthetic

/-!
# Passes over a class

A pass runs several transforms over one class, one after another. Each of them sees what the
ones before it left.
-/

namespace JarRemap

/-- A way of changing a class. -/
inductive Transform
  | remap
  | access
  | strip
deriving DecidableEq, Repr

/-- A class that is being changed, and the rules with what is known about them so far. -/
structure Workbench where
  tracked : TrackedClass
  rules : RuleSet
deriving DecidableEq, Repr

/-- Work on a class that may fail and still leaves a class and a ledger behind. -/
abbrev ClassWork := ExceptT Fault (StateM Workbench)

namespace ClassWork

def ofEdit {α : Type} (edit : ClassEdit α) : ClassWork α := ExceptT.mk fun bench =>
  let (outcome, file) := edit.run.run bench.tracked.current
  (outcome, { bench with tracked := { bench.tracked with current := file } })

/-- Applies the rules for the class, and says whether anything changed. -/
def applyRules : ClassWork Bool := ExceptT.mk fun bench =>
  match bench.rules.applyTo bench.tracked with
  | .ok (rules, tracked, changed) => (.ok changed, ⟨tracked, rules⟩)
  | .error fault => (.error fault, bench)

/-- Takes the synthetic mark off the members, and says whether there was one. -/
def strip : ClassWork Bool := ExceptT.mk fun bench =>
  match Synthetic.strip bench.tracked.current with
  | .ok (file, changed) =>
    (.ok changed, { bench with tracked := { bench.tracked with current := file } })
  | .error fault => (.error fault, bench)

end ClassWork

namespace Transform

def apply (symbols : SymbolMap) : Transform → ClassWork Bool
  | .remap => ClassWork.ofEdit (Remap.remapClass symbols)
  | .access => ClassWork.applyRules
  | .strip => ClassWork.strip

/-- Runs one transform after another, and says whether any of them changed anything. -/
def applyAll (symbols : SymbolMap) : List Transform → ClassWork Bool
  | [] => return false
  | transform :: rest => do
    let changed ← transform.apply symbols
    let others ← applyAll symbols rest
    return changed || others

end Transform

end JarRemap
