import JarRemap.Access.Merge
import JarRemap.Structure

/-!
# Access rules for nested classes

The access flags of a nested class are kept in the records about it: the one that the class around
it has and the one it has itself. A rule for a nested class is merged into both.

Where a record has no proper access value, everything stops, and what was merged before stays
merged.
-/

namespace JarRemap

namespace InnerRecord

/-- Merges a rule into the records about its owner, and counts them. -/
def mergeAll (rule : AccessRule) : List InnerRecord → List InnerRecord × Except Failure Nat
  | [] => ([], .ok 0)
  | record :: rest =>
    if record.innerClass = rule.owner then
      match record.accessFlags with
      | .error failure => (record :: rest, .error failure)
      | .ok flags =>
        let (merged, count) := mergeAll rule rest
        (record.withAccess (flags.merged rule) :: merged, (· + 1) <$> count)
    else
      let (merged, count) := mergeAll rule rest
      (record :: merged, count)

end InnerRecord

namespace StructureTable

/-- Work on a table that may fail and still leaves a table behind. -/
abbrev Edit := ExceptT Failure (StateM StructureTable)

/-- Merges a rule into the records that `holder` has, and counts those that it is for. -/
def mergeUnder (rule : AccessRule) (holder : String) : Edit Nat := ExceptT.mk fun table =>
  match (table.get? holder).bind ClassStructure.innerClasses with
  | none => (.ok 0, table)
  | some records =>
    let (merged, count) := InnerRecord.mergeAll rule records
    (count, table.modify holder fun structure_ => { structure_ with innerClasses := some merged })

/-- Merges a rule for a nested class; other rules are none of the table's business. -/
def applyRule (rule : AccessRule) : Edit Nat := do
  if rule.isForNestedClass then
    let around ← match rule.outerOwner with
      | some outer => mergeUnder rule outer
      | none => pure 0
    let own ← mergeUnder rule rule.owner
    return around + own
  else
    return 0

/-- Merges the rules one after another, and counts the records that were merged. -/
def applyRules : List AccessRule → Edit Nat
  | [] => return 0
  | rule :: rest => do
    let count ← applyRule rule
    let others ← applyRules rest
    return count + others

end StructureTable

end JarRemap
