import JarRemap.Proofs.Edit
import JarRemap.Proofs.Outcome
import JarRemap.Proofs.Text.Pieces
import JarRemap.Structure.Rules
import Mathlib.Algebra.BigOperators.Group.List.Basic
import Mathlib.Algebra.GroupWithZero.Nat

/-!
# What access rules do to structural metadata

As long as every access value can be read, merging a list of rules into a table changes each record
on its own: the rules that reach it are merged into it one after another. A rule is meant for the
records that the class around its owner has, and for those of the owner itself. Where the owner lies
more than one class deep, it does not reach the first ones.
-/

namespace JarRemap

/-! ## Access values -/

namespace Text.Hex

private theorem digit?_digitChar {value : Nat} (small : value < 16) :
    digit? value.digitChar = some value := by
  revert value
  decide

/-- Digits behind other digits. -/
private theorem digitsOnto_append (value : Nat) (front back : List Char) :
    digitsOnto value (front ++ back) = (digitsOnto value front).bind (digitsOnto · back) := by
  induction front generalizing value with
  | nil => rfl
  | cons c front ih =>
    simp only [List.cons_append, digitsOnto, Option.bind_assoc, ih]

theorem digitsOnto_toDigits (value : Nat) : digitsOnto 0 (Nat.toDigits 16 value) = some value := by
  -- The last digit is the remainder, and those in front of it are the digits of the quotient.
  induction value using Nat.strongRecOn with
  | ind value ih =>
    rw [Nat.toDigits_eq_if (by decide)]
    split
    next small => simp [digitsOnto, digit?_digitChar small]
    next large =>
      have last : digit? (value % 16).digitChar = some (value % 16) :=
        digit?_digitChar (Nat.mod_lt _ (by decide))
      rw [digitsOnto_append, ih (value / 16) (by omega)]
      simp only [Option.bind_some, digitsOnto, last, Option.some.injEq]
      omega

private theorem digit?_of_digitsOnto {value total : Nat} {chars : List Char}
    (read : digitsOnto value chars = some total) : ∀ c ∈ chars, (digit? c).isSome := by
  induction chars generalizing value with
  | nil => simp
  | cons c chars ih =>
    obtain ⟨digit, here, rest⟩ := Option.bind_eq_some_iff.mp read
    exact List.forall_mem_cons.mpr ⟨Option.isSome_of_eq_some here, ih rest⟩

/-- Nothing but digits is written, so neither a sign nor a mark is taken for one. -/
private theorem digit?_of_mem_toDigits (value : Nat) :
    ∀ c ∈ Nat.toDigits 16 value, (digit? c).isSome :=
  digit?_of_digitsOnto (digitsOnto_toDigits value)

theorem uint16?_toDigits (value : UInt16) : uint16? (Nat.toDigits 16 value.toNat) = some value := by
  have read := digitsOnto_toDigits value.toNat
  have digits := digit?_of_mem_toDigits value.toNat
  cases written : Nat.toDigits 16 value.toNat with
  | nil => exact absurd written Nat.toDigits_ne_nil
  | cons first rest =>
    have unsigned : first ≠ '+' := by
      rintro rfl
      exact absurd (digits '+' (written ▸ List.mem_cons_self)) (by decide)
    rw [written] at read
    unfold uint16?
    split
    next same => exact absurd (List.cons.inj same).1 unsigned
    · simp [read, value.toNat_lt]

theorem withoutMarks_toDigits (value : Nat) :
    InnerRecord.withoutMarks (Nat.toDigits 16 value) = Nat.toDigits 16 value := by
  have digits := digit?_of_mem_toDigits value
  unfold InnerRecord.withoutMarks
  split
  next rest written =>
    exact absurd (digits 'x' (written ▸ by simp)) (by decide)
  · rfl

end Text.Hex

namespace InnerRecord

/-- An access value that was written can be read again. -/
@[simp] theorem accessFlags_withAccess (record : InnerRecord) (flags : AccessFlags) :
    (record.withAccess flags).accessFlags = .ok flags := by
  unfold accessFlags withAccess
  by_cases empty : flags = .empty
  · simp [empty]
  · simp [empty, Text.Hex.ofNat, Text.Hex.withoutMarks_toDigits, Text.Hex.uint16?_toDigits]

/-- The record with the rule merged into its access flags. A record without a proper access value
stays as it is. -/
def merge (record : InnerRecord) (rule : AccessRule) : InnerRecord :=
  match record.accessFlags with
  | .ok flags => record.withAccess (flags.merged rule)
  | .error _ => record

@[simp] theorem merge_innerClass (record : InnerRecord) (rule : AccessRule) :
    (record.merge rule).innerClass = record.innerClass := by
  unfold merge
  split <;> rfl

theorem foldl_merge_innerClass (record : InnerRecord) (rules : List AccessRule) :
    (rules.foldl merge record).innerClass = record.innerClass := by
  induction rules generalizing record with
  | nil => rfl
  | cons rule rules ih => rw [List.foldl_cons, ih, merge_innerClass]

/-- After a list of rules, the record has the flags that these rules make of its own. -/
theorem foldl_merge_accessFlags {record : InnerRecord} {flags : AccessFlags}
    (read : record.accessFlags = .ok flags) (rules : List AccessRule) :
    (rules.foldl merge record).accessFlags = .ok (rules.foldl AccessFlags.merged flags) := by
  induction rules generalizing record flags with
  | nil => exact read
  | cons rule rules ih =>
    have merged : (record.merge rule).accessFlags = .ok (flags.merged rule) := by
      rw [merge, read]
      exact accessFlags_withAccess _ _
    exact ih merged

/-- Where every record can be read, those about the owner of the rule are merged with it. -/
theorem mergeAll_of_read {rule : AccessRule} {records : List InnerRecord}
    (proper : ∀ record ∈ records, ∃ flags, record.accessFlags = .ok flags) :
    mergeAll rule records =
      (records.map fun record => if record.innerClass = rule.owner then record.merge rule else record,
        .ok (records.countP fun record => record.innerClass = rule.owner)) := by
  induction records with
  | nil => rfl
  | cons record records ih =>
    rw [List.forall_mem_cons] at proper
    obtain ⟨⟨flags, read⟩, rest⟩ := proper
    by_cases about : record.innerClass = rule.owner
    · simp [mergeAll, about, read, ih rest, merge]
    · simp [mergeAll, about, ih rest]

end InnerRecord

/-! ## Whom a rule is for -/

namespace AccessRule

/-- The classes whose records about the owner a rule is merged into: the one in front of the owner's
first dollar sign, and the owner itself. -/
def holders (rule : AccessRule) : List String :=
  match rule.member, rule.outerOwner with
  | none, some outer => [outer, rule.owner]
  | _, _ => []

/-- The classes that a rule for a nested class is meant for: the one around the owner, which is in
front of the owner's last dollar sign, and the owner itself. -/
def enclosing (rule : AccessRule) : List String :=
  match rule.member, Text.cutLast? '$' rule.owner.toList with
  | none, some (c :: outer, _) => [String.ofList (c :: outer), rule.owner]
  | _, _ => []

theorem mem_enclosing_iff (rule : AccessRule) (holder : String) :
    holder ∈ rule.enclosing ↔ rule.member = none ∧ ∃ outer simple : List Char,
      rule.owner.toList = outer ++ '$' :: simple ∧ outer ≠ [] ∧ '$' ∉ simple ∧
      (holder = String.ofList outer ∨ holder = rule.owner) := by
  unfold enclosing
  split
  next c outer simple whole cutting =>
    obtain ⟨parts, last⟩ := Text.cutLast?_eq_some_iff.mp cutting
    simp only [List.mem_cons, List.not_mem_nil, or_false, whole, true_and]
    constructor
    · exact fun either => ⟨c :: outer, simple, parts, by simp, last, either⟩
    · rintro ⟨outer', simple', parts', -, last', either⟩
      obtain ⟨rfl, -⟩ := Text.last_mark_inj last last' (parts.symm.trans parts')
      exact either
  next uncut =>
    simp only [List.not_mem_nil, false_iff, not_and, not_exists]
    rintro whole outer simple parts nonempty last
    obtain ⟨c, outer, rfl⟩ := List.exists_cons_of_ne_nil nonempty
    exact absurd (Text.cutLast?_eq_some_iff.mpr ⟨parts, last⟩) (uncut c outer simple whole)

theorem outerOwner_eq_some_iff (rule : AccessRule) (outer : String) :
    rule.outerOwner = some outer ↔ ∃ rest : List Char,
      rule.owner.toList = outer.toList ++ '$' :: rest ∧ outer.toList ≠ [] ∧ '$' ∉ outer.toList := by
  unfold outerOwner
  constructor
  · -- Nothing is found without a dollar sign, nor with nothing in front of it.
    intro found
    split at found
    · cases found
    · cases found
    next front rest nonempty cutting =>
      obtain rfl := Option.some.inj found
      obtain ⟨parts, first⟩ := Text.cut_eq_some_iff.mp cutting
      have nonempty : front ≠ [] := fun empty => nonempty empty
      exact ⟨rest, by simpa using parts, by simpa using nonempty, by simpa using first⟩
  · rintro ⟨rest, parts, nonempty, first⟩
    rw [Text.cut_eq_some_iff.mpr ⟨parts, first⟩]
    split
    next same => exact absurd (Prod.mk.inj same).1 nonempty
    next same => cases (Prod.mk.inj same).2
    next same =>
      obtain ⟨rfl, -⟩ := Prod.mk.inj same
      simp

theorem mem_holders_iff (rule : AccessRule) (holder : String) :
    holder ∈ rule.holders ↔ rule.member = none ∧ ∃ outer, rule.outerOwner = some outer ∧
      (holder = outer ∨ holder = rule.owner) := by
  unfold holders
  split
  next outer whole found => simp [whole, found]
  next other =>
    simp only [List.not_mem_nil, false_iff, not_and, not_exists]
    exact fun whole outer found => absurd found (other outer whole)

/-- The class in front of the first dollar sign is not the owner. -/
theorem outerOwner_ne {rule : AccessRule} {outer : String} (found : rule.outerOwner = some outer) :
    outer ≠ rule.owner := by
  obtain ⟨rest, parts, -, first⟩ := (rule.outerOwner_eq_some_iff outer).mp found
  intro same
  exact first (same ▸ parts ▸ by simp)

/-- Where the owner has at most one dollar sign, the first one is the last. -/
theorem holders_eq_enclosing {rule : AccessRule}
    (shallow : rule.member = none → rule.owner.toList.count '$' ≤ 1) :
    rule.holders = rule.enclosing := by
  unfold holders enclosing
  cases whole : rule.member with
  | some pattern => rfl
  | none =>
    have once := shallow whole
    unfold outerOwner
    by_cases within : '$' ∈ rule.owner.toList
    · obtain ⟨front, back, parts⟩ := List.append_of_mem within
      rw [parts, List.count_append, List.count_cons_self] at once
      have first : '$' ∉ front := List.count_eq_zero.mp (by omega)
      have last : '$' ∉ back := List.count_eq_zero.mp (by omega)
      rw [Text.cut_eq_some_iff.mpr ⟨parts, first⟩, Text.cutLast?_eq_some_iff.mpr ⟨parts, last⟩]
      cases front <;> rfl
    · rw [Text.cut_of_notMem within, Text.cutLast?_eq_none_iff.mpr within]
      cases rule.owner.toList <;> rfl

end AccessRule

/-! ## Records of a table -/

namespace Dictionary

variable {α : Type}

/-- A sum over the entries that counts only those for `key` is what the value for `key` counts. -/
theorem sum_at_key (table : Dictionary α) (key : String) (amount : α → Nat) :
    (table.entries.map fun entry => if entry.1 = key then amount entry.2 else 0).sum =
      ((table.get? key).map amount).getD 0 := by
  obtain ⟨entries, sorted⟩ := table
  simp only [get?]
  induction entries with
  | nil => rfl
  | cons entry entries ih =>
    obtain ⟨other, held⟩ := entry
    obtain ⟨smallest, rest⟩ := List.pairwise_cons.mp sorted
    rw [List.map_cons, List.sum_cons, ih rest, List.lookup_cons]
    -- Keys are sorted, so no entry behind has this key again.
    by_cases same : other = key
    · have apart : entries.lookup key = none := List.lookup_eq_none_iff.mpr fun entry member =>
        bne_iff_ne.mpr (Std.ne_of_lt (same ▸ smallest entry member))
      simp [same, apart]
    · have differs : (key == other) = false := beq_eq_false_iff_ne.mpr (Ne.symm same)
      simp [same, differs]

theorem get?_eq_some_iff (table : Dictionary α) (key : String) (value : α) :
    table.get? key = some value ↔ (key, value) ∈ table.entries := by
  obtain ⟨entries, sorted⟩ := table
  simp only [get?]
  induction entries with
  | nil => simp
  | cons entry entries ih =>
    obtain ⟨other, held⟩ := entry
    obtain ⟨smallest, rest⟩ := List.pairwise_cons.mp sorted
    rw [List.lookup_cons, List.mem_cons, Prod.mk.injEq]
    -- The keys are in order, so one that is found first is not found again.
    by_cases same : key = other
    · have apart : (key, value) ∉ entries := fun member =>
        Std.ne_of_lt (smallest _ member) same.symm
      simp [same, same ▸ apart, eq_comm]
    · have differs : (key == other) = false := beq_eq_false_iff_ne.mpr same
      simp [same, differs, ih rest]

end Dictionary

namespace StructureTable

/-- Every record has a proper access value. -/
def Proper (table : StructureTable) : Prop :=
  ∀ entry ∈ table.entries, ∀ record ∈ entry.2.innerClasses.getD [],
    ∃ flags, record.accessFlags = .ok flags

/-- The table with every record changed, in a way that may depend on the class that has it. -/
def mapRecords (change : String → InnerRecord → InnerRecord) (table : StructureTable) :
    StructureTable where
  entries := table.entries.map fun (holder, held) =>
    (holder, { held with innerClasses := held.innerClasses.map (List.map (change holder)) })
  sorted := by
    rw [List.pairwise_map]
    exact table.sorted

/-- A sum over all records. -/
def sumRecords (amount : String → InnerRecord → Nat) (table : StructureTable) : Nat :=
  (table.entries.map fun (holder, held) =>
    ((held.innerClasses.getD []).map (amount holder)).sum).sum

theorem sumRecords_mapRecords (amount : String → InnerRecord → Nat)
    (change : String → InnerRecord → InnerRecord) (table : StructureTable) :
    (table.mapRecords change).sumRecords amount =
      table.sumRecords fun holder record => amount holder (change holder record) := by
  simp only [sumRecords, mapRecords, List.map_map]
  refine congrArg List.sum (List.map_congr_left fun entry _ => ?_)
  cases given : entry.2.innerClasses with
  | none => simp [given]
  | some records => simp [given, Function.comp_def]

theorem sumRecords_add (first second : String → InnerRecord → Nat) (table : StructureTable) :
    table.sumRecords first + table.sumRecords second =
      table.sumRecords fun holder record => first holder record + second holder record := by
  simp only [sumRecords, List.sum_map_add]

theorem mapRecords_mapRecords (first second : String → InnerRecord → InnerRecord)
    (table : StructureTable) :
    (table.mapRecords first).mapRecords second =
      table.mapRecords fun holder record => second holder (first holder record) := by
  simp [mapRecords, Function.comp_def]

variable {table : StructureTable}

theorem mapRecords_id (table : StructureTable) : table.mapRecords (fun _ record => record) = table := by
  simp [mapRecords]

/-- A change of the records of one class is a change of its value. -/
theorem mapRecords_eq_modify {change : String → InnerRecord → InnerRecord} {holder : String}
    (elsewhere : ∀ other, other ≠ holder → ∀ record, change other record = record)
    {held : ClassStructure} (given : table.get? holder = some held) :
    table.mapRecords change = table.modify holder fun structure_ =>
      { structure_ with innerClasses := held.innerClasses.map (List.map (change holder)) } := by
  simp only [mapRecords, Dictionary.modify, Dictionary.mk.injEq]
  refine List.map_congr_left fun entry member => ?_
  by_cases here : entry.1 = holder
  · obtain rfl : entry.2 = held :=
      Option.some.inj (((table.get?_eq_some_iff _ _).mpr (here ▸ member)).symm.trans given)
    simp [here]
  · have kept : change entry.1 = id := funext (elsewhere entry.1 here)
    simp [here, kept]

theorem mapRecords_eq_self {change : String → InnerRecord → InnerRecord} {holder : String}
    (elsewhere : ∀ other, other ≠ holder → ∀ record, change other record = record)
    (nothing : (table.get? holder).bind ClassStructure.innerClasses = none) :
    table.mapRecords change = table := by
  have fixed : ∀ entry ∈ table.entries, entry.2.innerClasses.map (List.map (change entry.1)) =
      entry.2.innerClasses := fun entry member => by
    by_cases here : entry.1 = holder
    · rw [← here, (table.get?_eq_some_iff _ _).mpr member, Option.bind_some] at nothing
      rw [nothing, Option.map_none]
    · have kept : change entry.1 = id := funext (elsewhere entry.1 here)
      simp [kept]
  obtain ⟨entries, sorted⟩ := table
  simp only [mapRecords, Dictionary.mk.injEq]
  calc
    _ = entries.map id := List.map_congr_left fun entry member => by rw [fixed entry member]; rfl
    _ = entries := List.map_id entries

/-! ## Merging rules -/

/-- The table with every record merged, one after another, with the rules that reach those about its
class under its holder. -/
def mergedWith (reached : String → String → List AccessRule) (table : StructureTable) : StructureTable :=
  table.mapRecords fun holder record => (reached holder record.innerClass).foldl InnerRecord.merge record

/-- The number of pairs of a record and a rule that reaches it. -/
def mergeCount (reached : String → String → List AccessRule) (table : StructureTable) : Nat :=
  table.sumRecords fun holder record => (reached holder record.innerClass).length

/-- The rules that reach the records about a class under a holder, if each is for the records about
its owner that some classes have. -/
def reaching (holders : AccessRule → List String) (rules : List AccessRule) (holder about : String) :
    List AccessRule :=
  rules.filter fun rule => rule.owner = about ∧ holder ∈ holders rule

theorem mergedWith_nothing (table : StructureTable) : table.mergedWith (fun _ _ => []) = table :=
  table.mapRecords_id

theorem mergeCount_nothing (table : StructureTable) : table.mergeCount (fun _ _ => []) = 0 := by
  simp [mergeCount, sumRecords]

/-- What was merged is about the same classes still, so later rules meet the same records. -/
theorem mergedWith_mergedWith (first second : String → String → List AccessRule)
    (table : StructureTable) :
    (table.mergedWith first).mergedWith second =
      table.mergedWith fun holder about => first holder about ++ second holder about := by
  simp only [mergedWith, mapRecords_mapRecords, InnerRecord.foldl_merge_innerClass, List.foldl_append]

theorem mergeCount_add (first second : String → String → List AccessRule) (table : StructureTable) :
    table.mergeCount first + (table.mergedWith first).mergeCount second =
      table.mergeCount fun holder about => first holder about ++ second holder about := by
  simp only [mergeCount, mergedWith, sumRecords_mapRecords, InnerRecord.foldl_merge_innerClass,
    sumRecords_add, List.length_append]

theorem reaching_append (holders : AccessRule → List String) (first second : List AccessRule) :
    (fun holder about => reaching holders first holder about ++ reaching holders second holder about) =
      reaching holders (first ++ second) := by
  funext holder about
  exact (List.filter_append _ _).symm

/-- Merging rules leaves every access value proper. -/
theorem Proper.mergedWith (proper : table.Proper) (reached : String → String → List AccessRule) :
    (table.mergedWith reached).Proper := by
  intro entry member record within
  obtain ⟨⟨holder, held⟩, before, rfl⟩ := List.mem_map.mp member
  cases given : held.innerClasses with
  | none => simp [given] at within
  | some records =>
    simp only [given, Option.map_some, Option.getD_some, List.mem_map] at within
    obtain ⟨old, there, rfl⟩ := within
    obtain ⟨flags, read⟩ := proper _ before old (by simpa [given] using there)
    exact ⟨_, InnerRecord.foldl_merge_accessFlags read _⟩

private theorem reaching_under (rule : AccessRule) (holder about : String) :
    reaching (fun _ => [holder]) [rule] holder about = if about = rule.owner then [rule] else [] := by
  simp [reaching, eq_comm, List.filter_cons]

private theorem reaching_elsewhere (rule : AccessRule) {holder other : String} (differs : other ≠ holder)
    (about : String) : reaching (fun _ => [holder]) [rule] other about = [] := by
  simp [reaching, differs]

/-- Only the records of the one class count, and of these the ones about the owner of the rule. -/
private theorem mergeCount_under (table : StructureTable) (rule : AccessRule) (holder : String) :
    table.mergeCount (reaching (fun _ => [holder]) [rule]) =
      ((table.get? holder).map fun held => (held.innerClasses.getD []).countP fun record =>
        record.innerClass = rule.owner).getD 0 := by
  rw [← table.sum_at_key holder]
  refine congrArg List.sum (List.map_congr_left fun entry _ => ?_)
  by_cases same : entry.1 = holder
  · simp [same, reaching_under, apply_ite, List.sum_map_ite, List.countP_eq_length_filter]
  · simp [same, reaching_elsewhere rule same]

theorem gives_mergeUnder (proper : table.Proper) (rule : AccessRule) (holder : String) :
    Gives (mergeUnder rule holder) table (table.mergeCount (reaching (fun _ => [holder]) [rule]))
      (table.mergedWith (reaching (fun _ => [holder]) [rule])) := by
  have merged (record : InnerRecord) :
      (reaching (fun _ => [holder]) [rule] holder record.innerClass).foldl InnerRecord.merge record =
        if record.innerClass = rule.owner then record.merge rule else record := by
    rw [reaching_under]
    split <;> rfl
  have unmerged (other : String) (differs : other ≠ holder) (record : InnerRecord) :
      (reaching (fun _ => [holder]) [rule] other record.innerClass).foldl InnerRecord.merge record =
        record := by
    rw [reaching_elsewhere rule differs, List.foldl_nil]
  rw [Gives, mergeUnder, ran_mk, mergeCount_under, mergedWith]
  split
  next nothing =>
    rw [mapRecords_eq_self unmerged nothing]
    cases given : table.get? holder with
    | none => rfl
    | some held =>
      rw [given, Option.bind_some] at nothing
      simp [nothing]
  next records listed =>
    obtain ⟨held, given, listed⟩ := Option.bind_eq_some_iff.mp listed
    -- A merge could only fail at an access value that cannot be read, and there is none.
    have readable : ∀ record ∈ records, ∃ flags, record.accessFlags = .ok flags :=
      fun record member => proper _ ((table.get?_eq_some_iff holder held).mp given) record
        (by simpa [listed] using member)
    rw [mapRecords_eq_modify unmerged given, InnerRecord.mergeAll_of_read readable, given]
    simp [listed, merged]

theorem gives_applyRule (proper : table.Proper) (rule : AccessRule) :
    Gives (applyRule rule) table (table.mergeCount (reaching AccessRule.holders [rule]))
      (table.mergedWith (reaching AccessRule.holders [rule])) := by
  unfold applyRule
  by_cases nested : rule.isForNestedClass = true
  · obtain ⟨whole, found⟩ : rule.member = none ∧ ∃ outer, rule.outerOwner = some outer := by
      simpa [AccessRule.isForNestedClass, Option.isSome_iff_exists] using nested
    obtain ⟨outer, found⟩ := found
    have differs := AccessRule.outerOwner_ne found
    -- No record is met twice, as the two holders are different classes.
    have both : reaching AccessRule.holders [rule] = fun holder about =>
        reaching (fun _ => [outer]) [rule] holder about ++
          reaching (fun _ => [rule.owner]) [rule] holder about := by
      funext holder about
      have holders : rule.holders = [outer, rule.owner] := by simp [AccessRule.holders, whole, found]
      simp only [reaching, List.filter_cons, List.filter_nil, holders]
      by_cases first : holder = outer <;> by_cases second : holder = rule.owner <;>
        by_cases same : rule.owner = about <;> simp_all
    rw [if_pos nested, found, both, ← mergeCount_add, ← mergedWith_mergedWith]
    simp only [gives_bind_iff, gives_pure_iff]
    exact ⟨_, _, gives_mergeUnder proper rule outer, _, _,
      gives_mergeUnder (proper.mergedWith _) rule rule.owner, rfl, rfl⟩
  · have none_ : reaching AccessRule.holders [rule] = fun _ _ => [] := by
      funext holder about
      have holders : rule.holders = [] := by
        unfold AccessRule.holders
        split
        next whole found => simp [AccessRule.isForNestedClass, *] at nested
        · rfl
      simp [reaching, holders]
    rw [if_neg nested, none_, mergeCount_nothing, mergedWith_nothing]
    exact (gives_pure_iff _ _ _ _).mpr ⟨rfl, rfl⟩

theorem gives_applyRules (proper : table.Proper) (rules : List AccessRule) :
    Gives (applyRules rules) table (table.mergeCount (reaching AccessRule.holders rules))
      (table.mergedWith (reaching AccessRule.holders rules)) := by
  -- The rest of the rules meets the table that the first one left, which is proper still.
  induction rules generalizing table with
  | nil =>
    refine (gives_pure_iff _ _ _ _).mpr ⟨table.mergeCount_nothing, table.mergedWith_nothing⟩
  | cons rule rules ih =>
    have appended := reaching_append AccessRule.holders [rule] rules
    rw [applyRules, ← List.singleton_append, ← appended, ← mergeCount_add, ← mergedWith_mergedWith]
    simp only [gives_bind_iff, gives_pure_iff]
    exact ⟨_, _, gives_applyRule proper rule, _, _, ih (proper.mergedWith _), rfl, rfl⟩

/-- A rule for a class that lies more than one class deep does not reach the records that the class
around it has. -/
theorem applyRules_misses {rules : List AccessRule} {rule : AccessRule} (member : rule ∈ rules)
    (whole : rule.member = none) (deep : 1 < rule.owner.toList.count '$') :
    ∃ table : StructureTable, table.Proper ∧
      table.mergeCount (reaching AccessRule.holders rules) ≠
        table.mergeCount (reaching AccessRule.enclosing rules) := by
  have within : '$' ∈ rule.owner.toList := List.count_pos_iff.mp (by omega)
  obtain ⟨⟨outer, simple⟩, cutting⟩ := Option.ne_none_iff_exists'.mp
    fun uncut => Text.cutLast?_eq_none_iff.mp uncut within
  obtain ⟨parts, last⟩ := Text.cutLast?_eq_some_iff.mp cutting
  have around : '$' ∈ outer := by
    rw [parts, List.count_append, List.count_cons_self, List.count_eq_zero.mpr last] at deep
    exact List.count_pos_iff.mp (by omega)
  -- The class around the owner has the one record, and it is about the owner.
  let record : InnerRecord := ⟨rule.owner, none, none, none, none⟩
  let table : StructureTable :=
    ⟨[(String.ofList outer, ⟨none, some [record], none, .empty⟩)], List.pairwise_singleton _ _⟩
  have counted (reached : String → String → List AccessRule) :
      table.mergeCount reached = (reached (String.ofList outer) rule.owner).length := by
    simp [table, record, mergeCount, sumRecords]
  have missed : reaching AccessRule.holders rules (String.ofList outer) rule.owner = [] := by
    refine List.filter_eq_nil_iff.mpr fun other _ reached => ?_
    obtain ⟨same, held⟩ := of_decide_eq_true reached
    obtain ⟨-, front, found, here | here⟩ := (other.mem_holders_iff _).mp held
    · obtain ⟨-, -, -, first⟩ := (other.outerOwner_eq_some_iff front).mp found
      exact first (by simpa [← here] using around)
    · have longer := congrArg List.length parts
      rw [← same, ← here] at longer
      simp at longer
  have meant : rule ∈ reaching AccessRule.enclosing rules (String.ofList outer) rule.owner := by
    refine List.mem_filter.mpr ⟨member, decide_eq_true ⟨rfl, (rule.mem_enclosing_iff _).mpr ?_⟩⟩
    exact ⟨whole, outer, simple, parts, List.ne_nil_of_mem around, last, .inl rfl⟩
  refine ⟨table, ?_, ?_⟩
  · intro entry found other listed
    obtain rfl := List.mem_singleton.mp found
    obtain rfl : other = record := by simpa using listed
    exact ⟨.empty, rfl⟩
  · rw [counted, counted, missed]
    exact (List.length_pos_of_mem meant).ne

/-- Rules change nothing but the records that they reach, each by the rules for it in their order,
and count these merges. They reach the records that they are meant for, whatever the table is,
exactly if none of the rules for whole classes is for one that lies more than one class deep. -/
theorem applyRules_merges (rules : List AccessRule) :
    (∀ table : StructureTable, table.Proper →
      Gives (applyRules rules) table (table.mergeCount (reaching AccessRule.holders rules))
        (table.mergedWith (reaching AccessRule.holders rules))) ∧
    ((∀ table : StructureTable, table.Proper →
        Gives (applyRules rules) table (table.mergeCount (reaching AccessRule.enclosing rules))
          (table.mergedWith (reaching AccessRule.enclosing rules))) ↔
      ∀ rule ∈ rules, rule.member = none → rule.owner.toList.count '$' ≤ 1) := by
  refine ⟨fun table proper => gives_applyRules proper rules, fun meant rule member whole => ?_,
    fun shallow table proper => ?_⟩
  · by_contra deep
    obtain ⟨table, proper, differs⟩ := applyRules_misses member whole (not_le.mp deep)
    have found := (gives_applyRules proper rules).symm.trans (meant table proper)
    exact differs (by simpa using (Prod.mk.inj found).1)
  · have same : reaching AccessRule.holders rules = reaching AccessRule.enclosing rules := by
      funext holder about
      refine List.filter_congr fun rule member => ?_
      rw [AccessRule.holders_eq_enclosing (shallow rule member)]
    rw [← same]
    exact gives_applyRules proper rules

/-- The rule that makes a class public. -/
def publishing (owner : String) : AccessRule := ⟨.pub, .keep, owner, none⟩

/-- Records of a nested class under the class around it and under the class itself, and one of another
class. -/
def listedTwice (outer inner : String) : StructureTable :=
  .ofList [("a/A", ⟨none, some [⟨"a/A$B", none, none, some outer, none⟩,
      ⟨"a/A$1", none, none, none, none⟩], none, .empty⟩),
    ("a/A$B", ⟨none, some [⟨"a/A$B", some "a/A", some "B", some inner, none⟩], none, .empty⟩)]

/-- Three rules for the nested class, of which one is there twice, and one for the class around it. -/
def repeatedRules : List AccessRule :=
  [publishing "a/A$B", ⟨.prot, .set, "a/A$B", none⟩, publishing "a/A$B", publishing "a/A"]

/-- Both records of the nested class are merged with each of its rules. -/
theorem applyRules_merges_listedTwice :
    (listedTwice "2" "8").Proper ∧
    Gives (applyRules repeatedRules) (listedTwice "2" "8") 6 (listedTwice "11" "19") := by
  have proper : (listedTwice "2" "8").Proper := by
    have entries : (listedTwice "2" "8").entries =
        [("a/A", ⟨none, some [⟨"a/A$B", none, none, some "2", none⟩, ⟨"a/A$1", none, none, none, none⟩],
          none, .empty⟩),
        ("a/A$B", ⟨none, some [⟨"a/A$B", some "a/A", some "B", some "8", none⟩], none, .empty⟩)] := by
      decide +kernel
    intro entry member record listed
    rw [entries] at member
    simp only [List.mem_cons, List.not_mem_nil, or_false] at member
    obtain rfl | rfl := member <;>
      simp only [Option.getD_some, List.mem_cons, List.not_mem_nil, or_false] at listed
    · obtain rfl | rfl := listed
      · exact ⟨.accPrivate, by decide +kernel⟩
      · exact ⟨.empty, by decide +kernel⟩
    · obtain rfl := listed
      exact ⟨.accStatic, by decide +kernel⟩
  have merged := (applyRules_merges repeatedRules).1 _ proper
  have count : (listedTwice "2" "8").mergeCount (reaching AccessRule.holders repeatedRules) = 6 := by
    decide +kernel
  have after : (listedTwice "2" "8").mergedWith (reaching AccessRule.holders repeatedRules) =
      listedTwice "11" "19" := by decide +kernel
  rw [count, after] at merged
  exact ⟨proper, merged⟩

/-- The record of a private class, with the given holder and one more that is left alone. -/
def nestedIn (holder nested access : String) : StructureTable :=
  .ofList [(holder, ⟨none, some [⟨nested, none, none, some access, none⟩,
    ⟨holder ++ "$1", none, none, none, none⟩], none, .empty⟩)]

/-- The record that the class around a class has is passed over if the class lies two classes deep. -/
theorem applyRules_passes_over :
    "a/A$B" ∈ (publishing "a/A$B$C").enclosing ∧
    Gives (applyRules [publishing "a/A$B$C"]) (nestedIn "a/A$B" "a/A$B$C" "2") 0
      (nestedIn "a/A$B" "a/A$B$C" "2") := by
  refine ⟨by decide +kernel, Prod.ext (by rfl) (by decide +kernel)⟩

end StructureTable

end JarRemap
