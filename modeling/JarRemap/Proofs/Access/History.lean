import JarRemap.Proofs.Access.Marks

/-!
# What the ledger knows

Lines are loaded and rules are applied to classes, in any order. At any time the ledger has a record
for each target of a rule, with the line where it came up first, and the records that are marked
are those of the rules that have changed something.
-/

namespace JarRemap

namespace Ledger

variable (ledger : Ledger)

/-- The keys of the records, in order. -/
def keys : List String := ledger.records.map (·.key)

theorem hasKey_iff (key : String) : ledger.hasKey key = true ↔ key ∈ ledger.keys := by
  simp [hasKey, keys]

theorem keys_marked (changed : List String) : (ledger.marked changed).keys = ledger.keys := by
  simp only [keys, marked, List.map_map]
  refine List.map_congr_left fun record _ => ?_
  simp only [Function.comp]
  split <;> rfl

theorem mem_marked_iff (changed : List String) (record : RuleRecord) :
    record ∈ (ledger.marked changed).records ↔ ∃ old ∈ ledger.records,
      record = { old with effective := old.effective || decide (old.key ∈ changed) } := by
  simp only [marked, List.mem_map]
  refine exists_congr fun old => and_congr_right fun _ => ?_
  rw [eq_comm]
  by_cases here : old.key ∈ changed
  · simp [here]
  · simp [here]

/-- A record that is marked stays as it is. -/
theorem mem_marked_of_effective (changed : List String) {record : RuleRecord}
    (member : record ∈ ledger.records) (effective : record.effective = true) :
    record ∈ (ledger.marked changed).records := by
  refine (ledger.mem_marked_iff changed record).mpr ⟨record, member, ?_⟩
  rw [effective, Bool.true_or, ← effective]

end Ledger

/-- What is done with a set of rules. -/
inductive RuleCall
  | load (line : String) (origin : LineOrigin)
  | apply (tracked : TrackedClass)

/-- A rule as it was put into the set, and the line that it is from. -/
structure LoadedRule where
  rule : AccessRule
  line : String
  origin : LineOrigin

/-- The record of a rule that has not changed anything yet. -/
def LoadedRule.record (loaded : LoadedRule) : RuleRecord :=
  ⟨loaded.rule.key, String.ofList (Text.trim loaded.line.toList), false, loaded.origin⟩

namespace Ledger

def withRule (ledger : Ledger) (loaded : LoadedRule) : Ledger :=
  ledger.register loaded.rule loaded.line loaded.origin

variable {ledger : Ledger} {loaded : LoadedRule}

/-- The key has a record already, which stays the only one. -/
theorem withRule_known (known : loaded.rule.key ∈ ledger.keys) : ledger.withRule loaded = ledger :=
  if_pos ((ledger.hasKey_iff _).mpr known)

theorem withRule_new (new : loaded.rule.key ∉ ledger.keys) :
    ledger.withRule loaded = ⟨ledger.records ++ [loaded.record]⟩ :=
  if_neg (mt (ledger.hasKey_iff _).mp new)

/-- A rule has a record of its own only if it is the first one with its key. -/
theorem mem_withRule_iff (ledger : Ledger) (loaded : LoadedRule) (record : RuleRecord) :
    record ∈ (ledger.withRule loaded).records ↔
      record ∈ ledger.records ∨ loaded.rule.key ∉ ledger.keys ∧ record = loaded.record := by
  by_cases known : loaded.rule.key ∈ ledger.keys
  · rw [withRule_known known]
    simp [known]
  · rw [withRule_new known]
    simp [known]

theorem keys_withRule (ledger : Ledger) (loaded : LoadedRule) :
    (ledger.withRule loaded).keys =
      ledger.keys ++ if loaded.rule.key ∈ ledger.keys then [] else [loaded.rule.key] := by
  split
  next known => rw [withRule_known known, List.append_nil]
  next new =>
    rw [withRule_new new]
    exact List.map_append

theorem nodup_keys_withRule (once : ledger.keys.Nodup) (loaded : LoadedRule) :
    (ledger.withRule loaded).keys.Nodup := by
  rw [keys_withRule]
  split
  next => rwa [List.append_nil]
  next new =>
    refine List.nodup_append.mpr ⟨once, by simp, ?_⟩
    rintro key member other here rfl
    exact new (List.mem_singleton.mp here ▸ member)

end Ledger

namespace RuleCall

/-- The rules that the call leaves behind, whether or not it succeeds. -/
def after (set : RuleSet) : RuleCall → RuleSet
  | load line origin => (ran (RuleSet.loadLine line origin) set).2
  | apply tracked =>
    match set.applyTo tracked with
    | .ok (marked, _, _) => marked
    | .error _ => set

/-- The rule that the call loads. Blank and malformed lines have none. -/
def loaded? (names : MemberNames) : RuleCall → Option LoadedRule
  | load line origin =>
    match AccessRule.parse line with
    | .ok (some rule) => some ⟨names.renameRule rule, line, origin⟩
    | _ => none
  | apply _ => none

/-- In the call, a rule with the key is applied and changes an access value. -/
def Changes (set : RuleSet) (key : String) : RuleCall → Prop
  | load _ _ => False
  | apply tracked => ∃ name, tracked.current.name = .ok name ∧
    ∃ rule before,
      (rule, before) ∈ AccessRule.inTurn (set.candidates tracked.first.name name) tracked ∧
        rule.key = key ∧ rule.changes before = true

/-- A call either adds a rule, or marks the records of rules that change something. -/
theorem after_cases (call : RuleCall) (set : RuleSet) :
    (∃ loaded, call.loaded? set.names = some loaded ∧ (∀ key, ¬ call.Changes set key) ∧
      call.after set =
        { set with rules := set.rules ++ [loaded.rule], ledger := set.ledger.withRule loaded }) ∨
    call.loaded? set.names = none ∧ ∃ keys, call.after set = set.marked keys ∧
      ∀ key, key ∈ keys ↔ call.Changes set key := by
  -- A line without a rule and a class whose name cannot be read do nothing, which is marking no
  -- keys.
  have idle : set = set.marked [] ∧ ∀ key : String, key ∈ [] ↔ False :=
    ⟨set.marked_nil.symm, fun key => iff_of_false List.not_mem_nil id⟩
  cases call with
  | load line origin =>
    cases parsed : AccessRule.parse line with
    | error reason =>
      right
      simp only [loaded?, after, RuleSet.loadLine, parsed]
      exact ⟨trivial, [], idle⟩
    | ok found =>
      cases found with
      | none =>
        right
        simp only [loaded?, after, RuleSet.loadLine, parsed]
        exact ⟨trivial, [], idle⟩
      | some rule =>
        left
        simp only [loaded?, after, RuleSet.loadLine, parsed]
        exact ⟨_, rfl, fun key => id, rfl⟩
  | apply tracked =>
    refine .inr ⟨rfl, ?_⟩
    cases named : tracked.current.name with
    | error fault =>
      refine ⟨[], ?_, fun key => ?_⟩
      · simp only [after, RuleSet.applyTo, named]
        exact idle.1
      · simp [Changes, named]
    | ok name =>
      have marked := congrArg (·.2.1)
        (RuleSet.applyAll_marked (set.candidates tracked.first.name name) tracked set.ledger)
      -- The keys that are marked are those of the rules that change something while they are
      -- applied in turn.
      refine ⟨AccessRule.changedKeys (set.candidates tracked.first.name name) tracked, ?_, ?_⟩
      · simp only [after, RuleSet.applyTo, named, bind, Except.bind, pure, Except.pure, marked]
        rfl
      · intro key
        simp [Changes, named, AccessRule.mem_changedKeys_iff]

end RuleCall

namespace RuleSet

def afterAll (calls : List RuleCall) (set : RuleSet) : RuleSet :=
  calls.foldl (fun set call => call.after set) set

theorem afterAll_concat (calls : List RuleCall) (call : RuleCall) (set : RuleSet) :
    afterAll (calls ++ [call]) set = call.after (afterAll calls set) := by
  rw [afterAll, List.foldl_append]
  rfl

/-- The rules that the calls load, in this order. -/
def loadedBy (names : MemberNames) (calls : List RuleCall) : List LoadedRule :=
  calls.filterMap (·.loaded? names)

/-- Among the calls, one has applied a rule with the key to a class and changed an access value. -/
def ChangedBy (names : MemberNames) (calls : List RuleCall) (key : String) : Prop :=
  ∃ earlier call later, calls = earlier ++ call :: later ∧
    call.Changes (afterAll earlier (new names)) key

theorem changedBy_concat_iff (names : MemberNames) (calls : List RuleCall) (call : RuleCall)
    (key : String) :
    ChangedBy names (calls ++ [call]) key ↔
      ChangedBy names calls key ∨ call.Changes (afterAll calls (new names)) key := by
  constructor
  · rintro ⟨earlier, other, later, split, changes⟩
    -- The call in question is the last one or an earlier one.
    rcases List.eq_nil_or_concat later with rfl | ⟨rest, last, rfl⟩
    · obtain ⟨rfl, same⟩ := List.append_inj' split rfl
      obtain rfl := List.singleton_inj.mp same
      exact .inr changes
    · rw [List.concat_eq_append, ← List.cons_append, ← List.append_assoc] at split
      exact .inl ⟨earlier, other, rest, (List.append_inj' split rfl).1, changes⟩
  · rintro (⟨earlier, other, later, rfl, changes⟩ | changes)
    · exact ⟨earlier, other, later ++ [call], by rw [List.append_assoc, List.cons_append], changes⟩
    · exact ⟨calls, call, [], rfl, changes⟩

/-- The rules and their ledger are what these calls, beginning with an empty set, have to leave. -/
structure Accounts (names : MemberNames) (calls : List RuleCall) (set : RuleSet) : Prop where
  renames : set.names = names
  rules : set.rules = (loadedBy names calls).map (·.rule)
  /-- In the order in which the keys came up. -/
  keys : set.ledger.keys = ((loadedBy names calls).map (·.rule.key)).eraseDups
  once : set.ledger.keys.Nodup
  /-- A record is about the first line with its key. -/
  first : ∀ record ∈ set.ledger.records, ∃ loaded,
    (loadedBy names calls).find? (·.rule.key == record.key) = some loaded ∧
      record.rawText = String.ofList (Text.trim loaded.line.toList) ∧ record.origin = loaded.origin
  effective : ∀ record ∈ set.ledger.records,
    record.effective = true ↔ ChangedBy names calls record.key
  recorded : ∀ key, ChangedBy names calls key → key ∈ set.ledger.keys

theorem accounts_new (names : MemberNames) : Accounts names [] (new names) where
  renames := rfl
  rules := rfl
  keys := rfl
  once := List.nodup_nil
  first := nofun
  effective := nofun
  recorded := by
    rintro key ⟨earlier, call, later, split, -⟩
    exact absurd split.symm (by simp)

section

variable {names : MemberNames} {calls : List RuleCall} {call : RuleCall} {set : RuleSet}

theorem Accounts.mem_keys_iff (accounts : Accounts names calls set) (key : String) :
    key ∈ set.ledger.keys ↔ ∃ loaded ∈ loadedBy names calls, loaded.rule.key = key := by
  rw [accounts.keys, List.mem_eraseDups, List.mem_map]

theorem eraseDups_concat (keys : List String) (key : String) :
    (keys ++ [key]).eraseDups =
      keys.eraseDups ++ if key ∈ keys.eraseDups then [] else [key] := by
  rw [List.eraseDups_append]
  by_cases known : key ∈ keys <;> simp [List.removeAll, known, List.eraseDups_cons]

private theorem Accounts.unseen (accounts : Accounts names calls set) {key : String}
    (new : key ∉ set.ledger.keys) : (loadedBy names calls).find? (·.rule.key == key) = none := by
  refine List.find?_eq_none.mpr fun other earlier here => new ?_
  exact (accounts.mem_keys_iff _).mpr ⟨other, earlier, eq_of_beq here⟩

/-- The set accounts for one more line with a rule. -/
theorem Accounts.loaded (accounts : Accounts names calls set) {loaded : LoadedRule}
    (holds : call.loaded? names = some loaded)
    (same : ∀ key, ChangedBy names (calls ++ [call]) key ↔ ChangedBy names calls key) :
    Accounts names (calls ++ [call])
      { set with rules := set.rules ++ [loaded.rule], ledger := set.ledger.withRule loaded } := by
  have all : loadedBy names (calls ++ [call]) = loadedBy names calls ++ [loaded] := by
    simp [loadedBy, holds]
  -- The records are the old ones and, if no rule had this key, one for the line.
  have records := set.ledger.mem_withRule_iff loaded
  exact {
    renames := accounts.renames
    rules := by
      rw [all, List.map_append, accounts.rules]
      rfl
    keys := by
      rw [all, List.map_append, List.map_singleton, eraseDups_concat, ← accounts.keys,
        Ledger.keys_withRule]
    once := Ledger.nodup_keys_withRule accounts.once loaded
    first := by
      intro record member
      rw [all]
      rcases (records record).mp member with earlier | ⟨new, rfl⟩
      · -- The first lines with their keys are the same with one more line behind them.
        obtain ⟨found, first, about⟩ := accounts.first record earlier
        exact ⟨found, by rw [List.find?_append, first, Option.some_or], about⟩
      · have unseen := accounts.unseen new
        exact ⟨loaded, by simp [List.find?_append, LoadedRule.record, unseen], rfl, rfl⟩
    effective := by
      intro record member
      rw [same]
      rcases (records record).mp member with earlier | ⟨new, rfl⟩
      · exact accounts.effective record earlier
      · -- No rule with this key can have changed anything, as it would have a record.
        exact iff_of_false Bool.false_ne_true (mt (accounts.recorded _) new)
    recorded := by
      intro key changed
      rw [Ledger.keys_withRule]
      exact List.mem_append_left _ (accounts.recorded key ((same key).mp changed)) }

/-- The set accounts for one more class to which the rules are applied. -/
theorem Accounts.marked (accounts : Accounts names calls set) (no : call.loaded? names = none)
    {changed : List String} (known : ∀ key ∈ changed, key ∈ set.ledger.keys)
    (more : ∀ key, ChangedBy names (calls ++ [call]) key ↔ ChangedBy names calls key ∨ key ∈ changed) :
    Accounts names (calls ++ [call]) (set.marked changed) := by
  have all : loadedBy names (calls ++ [call]) = loadedBy names calls := by
    simp [loadedBy, no]
  have keys : (set.marked changed).ledger.keys = set.ledger.keys := set.ledger.keys_marked changed
  exact {
    renames := accounts.renames
    rules := by
      rw [all]
      exact accounts.rules
    keys := by
      rw [all, keys]
      exact accounts.keys
    once := by
      rw [keys]
      exact accounts.once
    first := by
      -- A mark changes nothing of what a record says about its line.
      intro record member
      obtain ⟨old, there, rfl⟩ := (set.ledger.mem_marked_iff changed record).mp member
      rw [all]
      exact accounts.first old there
    effective := by
      intro record member
      obtain ⟨old, there, rfl⟩ := (set.ledger.mem_marked_iff changed record).mp member
      rw [more, ← accounts.effective old there, Bool.or_eq_true, decide_eq_true_eq]
    recorded := by
      intro key changes
      rw [keys]
      rcases (more key).mp changes with earlier | now
      · exact accounts.recorded key earlier
      · exact known key now }

/-- Only rules of the set are applied. -/
theorem Accounts.key_of_changes (accounts : Accounts names calls set) {key : String}
    (changes : call.Changes set key) : key ∈ set.ledger.keys := by
  cases call with
  | load line origin => exact changes.elim
  | apply tracked =>
    obtain ⟨name, -, rule, before, applied, rfl, -⟩ := changes
    -- The rule is owned by one of the two names of the class.
    have candidate := AccessRule.mem_of_mem_inTurn applied
    have among : rule ∈ set.rules := by
      rcases List.mem_append.mp candidate with first | current
      · exact (List.mem_filter.mp first).1
      · split at current
        next => cases current
        next => exact (List.mem_filter.mp current).1
    rw [accounts.rules] at among
    obtain ⟨loaded, earlier, rfl⟩ := List.mem_map.mp among
    exact (accounts.mem_keys_iff _).mpr ⟨loaded, earlier, rfl⟩

/-- The ledger has one record for each target, in the order in which the rules were loaded. -/
def InLoadOrder (set : RuleSet) : Prop := set.ledger.keys = (set.rules.map (·.key)).eraseDups

theorem inLoadOrder_new (names : MemberNames) : (new names).InLoadOrder := rfl

theorem InLoadOrder.marked (ordered : set.InLoadOrder) (changed : List String) :
    (set.marked changed).InLoadOrder :=
  (set.ledger.keys_marked changed).trans ordered

theorem InLoadOrder.after (ordered : set.InLoadOrder) (call : RuleCall) :
    (call.after set).InLoadOrder := by
  obtain ⟨loaded, -, -, after⟩ | ⟨-, keys, after, -⟩ := call.after_cases set
  · rw [after, InLoadOrder, List.map_append, List.map_singleton, eraseDups_concat, ← ordered]
    exact set.ledger.keys_withRule loaded
  · rw [after]
    exact ordered.marked keys

end

/-- Every call is accounted for. -/
theorem accounts_afterAll (names : MemberNames) (calls : List RuleCall) :
    Accounts names calls (afterAll calls (new names)) := by
  -- What a call changes depends on all calls before it, so the last call is the step.
  induction calls using List.reverseRecOn with
  | nil => exact accounts_new names
  | append_singleton calls call ih =>
    have changed := changedBy_concat_iff names calls call
    rw [afterAll_concat]
    rcases call.after_cases (afterAll calls (new names)) with
      ⟨loaded, holds, idle, after⟩ | ⟨no, keys, after, known⟩
    · rw [ih.renames] at holds
      rw [after]
      refine ih.loaded holds fun key => ?_
      rw [changed, or_iff_left (idle key)]
    · rw [ih.renames] at no
      rw [after]
      refine ih.marked no (fun key member => ih.key_of_changes ((known key).mp member)) fun key => ?_
      rw [changed, known]

theorem mem_after_of_effective (call : RuleCall) (set : RuleSet) {record : RuleRecord}
    (member : record ∈ set.ledger.records) (effective : record.effective = true) :
    record ∈ (call.after set).ledger.records := by
  rcases call.after_cases set with ⟨loaded, -, -, after⟩ | ⟨-, keys, after, -⟩
  · rw [after]
    exact (set.ledger.mem_withRule_iff loaded record).mpr (.inl member)
  · rw [after]
    exact set.ledger.mem_marked_of_effective keys member effective

/-- A record that is effective is never changed again. -/
theorem mem_afterAll_of_effective (calls : List RuleCall) (set : RuleSet) {record : RuleRecord}
    (member : record ∈ set.ledger.records) (effective : record.effective = true) :
    record ∈ (afterAll calls set).ledger.records := by
  induction calls generalizing set with
  | nil => exact member
  | cons call calls ih => exact ih (call.after set) (mem_after_of_effective call set member effective)

/-- Whatever was loaded and applied, the ledger has one record for each target, with the first line
that names it. The effective ones are for the targets whose rules have changed something, and stay
so. All others are broken. -/
theorem ledger_afterAll (names : MemberNames) (calls : List RuleCall) :
    let set := afterAll calls (new names)
    Accounts names calls set ∧
      (∀ record ∈ set.ledger.records, record.effective = true → ∀ further,
        record ∈ (afterAll (calls ++ further) (new names)).ledger.records) ∧
      set.ledger.broken.Sublist set.ledger.records ∧
      (∀ record ∈ set.ledger.records,
        record ∈ set.ledger.broken ↔ ¬ ChangedBy names calls record.key) ∧
      set.ledger.outcome.broken = set.ledger.broken ∧
      set.ledger.outcome.brokenCount = set.ledger.broken.length := by
  intro set
  have accounts := accounts_afterAll names calls
  refine ⟨accounts, ?_, List.filter_sublist, ?_, rfl, List.countP_eq_length_filter⟩
  · intro record member effective further
    have split : afterAll (calls ++ further) (new names) = afterAll further set := List.foldl_append
    rw [split]
    exact mem_afterAll_of_effective further set member effective
  · intro record member
    rw [← accounts.effective record member, Ledger.broken, List.mem_filter]
    simp [member]

end RuleSet

end JarRemap
