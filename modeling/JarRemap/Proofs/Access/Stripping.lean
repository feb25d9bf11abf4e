import JarRemap.Pass
import JarRemap.Proofs.Access.Application
import JarRemap.Proofs.Synthetic

/-!
# Rules and stripping

Rules for access values are about visibility and finality. Stripping is about one other bit, and it
decides by others which classes it spares. Neither of them sees what the other one does. So a class may
be stripped before its rules are applied or afterwards, and not even the ledger tells which.
-/

namespace JarRemap

namespace AccessFlags

/-! ## What rules are not about -/

/-- A merge makes the same visibility of the same one, also if the bits stand for none. -/
theorem visibility_merged_congr {first second : AccessFlags} (rule : AccessRule)
    (same : first.visibility = second.visibility) :
    (first.merged rule).visibility = (second.merged rule).visibility := by
  by_cases plain : ∃ visibility : Visibility, first.visibility = visibility.flags
  · obtain ⟨visibility, shown⟩ := plain
    rw [visibility_merged first rule shown, visibility_merged second rule (same.symm.trans shown)]
  · have mixed : ∀ visibility : Visibility, first.visibility ≠ visibility.flags := by
      intro visibility shown
      exact plain ⟨visibility, shown⟩
    rw [visibility_merged_mixed first rule mixed, visibility_merged_mixed second rule (same ▸ mixed)]

/-- A change that leaves alone what rules are about, and that does not depend on it either. -/
structure Aside (change : AccessFlags → AccessFlags) : Prop where
  visibility (flags : AccessFlags) : (change flags).visibility = flags.visibility
  isFinal (flags : AccessFlags) : (change flags).isFinal = flags.isFinal
  others {first second : AccessFlags} (same : first.others = second.others) :
    (change first).others = (change second).others

namespace Aside

variable {change : AccessFlags → AccessFlags} (aside : Aside change) (flags : AccessFlags)
  (rule : AccessRule)
include aside

theorem merged_comm : (change flags).merged rule = change (flags.merged rule) := by
  apply eq_of_parts
  · rw [aside.visibility]
    exact visibility_merged_congr rule (aside.visibility flags)
  · rw [aside.isFinal, isFinal_merged, isFinal_merged, aside.isFinal]
  · rw [others_merged]
    exact aside.others (others_merged flags rule).symm

/-- What a merge does to the flags can be seen after the change as well. -/
theorem merged_eq_iff : change (flags.merged rule) = change flags ↔ flags.merged rule = flags := by
  constructor
  · intro same
    apply eq_of_parts
    · rw [← aside.visibility (flags.merged rule), same, aside.visibility]
    · rw [← aside.isFinal (flags.merged rule), same, aside.isFinal]
    · exact others_merged flags rule
  · intro same
    rw [same]

end Aside

/-- Taking bits off makes no difference to other bits. -/
private theorem without_bits {taken mask : UInt16} (flags : AccessFlags)
    (apart : ~~~taken &&& mask = mask) : (flags.bits &&& ~~~taken) &&& mask = flags.bits &&& mask := by
  rw [UInt16.and_assoc, apart]

theorem aside_without_accSynthetic : Aside (·.without accSynthetic) where
  visibility flags := congrArg AccessFlags.mk (without_bits flags (by decide))
  isFinal flags := congrArg (· == accFinal.bits) (without_bits flags (by decide))
  others {first second} same := by
    have swapped (flags : AccessFlags) :
        (flags.without accSynthetic).others = flags.others.without accSynthetic := by
      simp only [others, without]
      ac_rfl
    rw [swapped, swapped, same]

/-- A flag that rules are not about is set after them exactly if it was set before. -/
theorem contains_of_others {first second flag : AccessFlags} (same : first.others = second.others)
    (apart : flag.others = flag) : first.contains flag = second.contains flag := by
  have known (flags : AccessFlags) : flags.bits &&& flag.bits = flags.others.bits &&& flag.bits := by
    conv_lhs => rw [← apart]
    simp only [others, without]
    ac_rfl
  rw [contains, contains, known first, known second, same]

end AccessFlags

/-! ## Rules for a class with other access values -/

theorem ClassFile.accessValues_withAccess_iff (file : ClassFile)
    (change : Site → AccessFlags → AccessFlags) :
    AccessRule.accessValues (file.withAccess change) = AccessRule.accessValues file ↔
      ∀ site flags, file.accessAt site = some flags → change site flags = flags := by
  constructor
  · intro same site flags here
    obtain ⟨class_, rest⟩ := Prod.mk.inj same
    obtain ⟨fields, methods⟩ := Prod.mk.inj rest
    -- The values of a class are listed for each kind of site, so equal lists agree at every site.
    have there : (file.withAccess change).accessAt site = file.accessAt site := by
      cases site with
      | wholeClass => exact congrArg some class_
      | member kind position =>
        rw [accessAt, accessAt, ← List.getElem?_map, ← List.getElem?_map]
        cases kind with
        | field => exact congrArg (·[position]?) fields
        | method => exact congrArg (·[position]?) methods
    rw [accessAt_withAccess, here] at there
    exact Option.some.inj there
  · intro same
    rw [(file.withAccess_eq_iff _ _).mpr same, file.withAccess_unchanged]

namespace AccessRule

variable (rule : AccessRule) (tracked : TrackedClass) {change : Site → AccessFlags → AccessFlags}

theorem selection_withAccess : rule.selection (tracked.withAccess change) = rule.selection tracked := by
  -- What is selected depends on names and descriptors and on how many members there are.
  have matching (kind : MemberKind) (name : String) (descriptor : Option String) :
      (tracked.withAccess change).matching kind name descriptor =
        tracked.matching kind name descriptor := by
    have namings : (tracked.withAccess change).namings kind = tracked.namings kind :=
      tracked.namings_withAccess change kind
    simp only [TrackedClass.matching, namings]
  have every (members : List Member) (change : Nat → Member → Member) :
      (members.mapIdx change).map (fun _ => true) = members.map fun _ => true := by
    simp [List.map_const']
  cases target : rule.target with
  | wholeClass => simp only [selection, target]
  | field name => simp only [selection, target, matching]
  | method name descriptor => simp only [selection, target, matching]
  | allFields =>
    simp only [selection, target]
    exact congrArg (fun all => some (MemberKind.field, all)) (every tracked.current.fields _)
  | allMethods =>
    simp only [selection, target]
    exact congrArg (fun all => some (MemberKind.method, all)) (every tracked.current.methods _)

theorem matched_withAccess :
    (rule.applied (tracked.withAccess change)).2 = (rule.applied tracked).2 := by
  rw [applied, applied, selection_withAccess]
  cases rule.selection tracked <;> rfl

theorem unchanged_iff : accessValues (rule.applied tracked).1.current = accessValues tracked.current ↔
    ∀ site flags, tracked.current.accessAt site = some flags →
      rule.merges tracked site flags = flags := by
  rw [applied_eq]
  exact tracked.current.accessValues_withAccess_iff (rule.merges tracked)

variable (aside : ∀ site, AccessFlags.Aside (change site))
include aside

theorem merges_withAccess (site : Site) (flags : AccessFlags) :
    rule.merges (tracked.withAccess change) site (change site flags) =
      change site (rule.merges tracked site flags) := by
  rw [merges, merges, TrackedClass.withAccess, hits_withAccess]
  split
  · exact (aside site).merged_comm flags rule
  · rfl

theorem applied_withAccess :
    (rule.applied (tracked.withAccess change)).1 = (rule.applied tracked).1.withAccess change := by
  have merged := rule.merges_withAccess tracked aside
  rw [applied_eq, applied_eq]
  simp only [TrackedClass.withAccess] at merged ⊢
  simp only [ClassFile.withAccess_withAccess, merged]

/-- No change of an access value by the rule is undone or made by the other change. -/
theorem unchanged_withAccess_iff :
    accessValues (rule.applied (tracked.withAccess change)).1.current =
        accessValues (tracked.withAccess change).current ↔
      accessValues (rule.applied tracked).1.current = accessValues tracked.current := by
  rw [unchanged_iff, unchanged_iff]
  constructor
  · intro same site flags here
    -- The rule meets the changed value here, and merging leaves it alone exactly if it leaves the
    -- old one.
    have there : (tracked.withAccess change).current.accessAt site = some (change site flags) := by
      rw [TrackedClass.withAccess, ClassFile.accessAt_withAccess, here, Option.map_some]
    have kept := same site (change site flags) there
    rw [rule.merges_withAccess tracked aside] at kept
    rw [merges] at kept ⊢
    split at kept
    next hit =>
      rw [if_pos hit]
      exact ((aside site).merged_eq_iff flags rule).mp kept
    next missed => rw [if_neg missed]
  · intro same site flags there
    rw [TrackedClass.withAccess, ClassFile.accessAt_withAccess] at there
    obtain ⟨before, here, rfl⟩ := Option.map_eq_some_iff.mp there
    rw [rule.merges_withAccess tracked aside, same site before here]

/-- A rule does the same to a class with other access values, and the same is said about it. -/
theorem apply_withAccess :
    rule.apply (tracked.withAccess change) =
      ((rule.apply tracked).1.withAccess change, (rule.apply tracked).2) := by
  have changed := rule.unchanged_withAccess_iff tracked aside
  rw [applied_withAccess rule tracked aside] at changed
  simp only [apply, matched_withAccess, applied_withAccess rule tracked aside, bne,
    Bool.beq_eq_decide_eq, changed]

end AccessRule

namespace RuleSet

variable {change : Site → AccessFlags → AccessFlags} (aside : ∀ site, AccessFlags.Aside (change site))
include aside

theorem applyAll_withAccess (rules : List AccessRule) (tracked : TrackedClass) (ledger : Ledger) :
    applyAll rules (tracked.withAccess change) ledger =
      ((applyAll rules tracked ledger).1.withAccess change, (applyAll rules tracked ledger).2) := by
  -- Each rule meets what the ones before it have left, so class and ledger are any.
  induction rules generalizing tracked ledger with
  | nil => rfl
  | cons rule rules ih =>
    simp only [applyAll, rule.apply_withAccess tracked aside]
    rcases rule.apply tracked with ⟨after, told⟩
    cases told with
    | none => exact ih after ledger
    | some changed => simp only [ih]

/-- All rules for a class do the same to it with other access values, and leave the same ledger. -/
theorem applyTo_withAccess_iff {set after : RuleSet} {tracked last : TrackedClass} {changed : Bool} :
    set.applyTo (tracked.withAccess change) = .ok (after, last, changed) ↔
      ∃ settled, set.applyTo tracked = .ok (after, settled, changed) ∧
        last = settled.withAccess change := by
  have name : (tracked.withAccess change).current.name = tracked.current.name := rfl
  rw [applyTo, applyTo, name]
  cases tracked.current.name with
  | error fault => simp [bind, Except.bind]
  | ok name =>
    have all := applyAll_withAccess aside
      (set.candidates (tracked.withAccess change).first.name name) tracked set.ledger
    simp only [bind, Except.bind, pure, Except.pure, Except.ok.injEq, Prod.mk.injEq, all]
    constructor
    · rintro ⟨rfl, rfl, rfl⟩
      exact ⟨_, ⟨rfl, rfl, rfl⟩, rfl⟩
    · rintro ⟨_, ⟨rfl, rfl, rfl⟩, rfl⟩
      exact ⟨rfl, rfl, rfl⟩

end RuleSet

/-! ## Stripping a class that rules have been at -/

namespace Synthetic

theorem aside_unmarks (site : Site) : AccessFlags.Aside (unmarks site) := by
  cases site with
  | wholeClass => exact ⟨fun _ => rfl, fun _ => rfl, id⟩
  | member kind position => exact AccessFlags.aside_without_accSynthetic

private theorem any_mapIdx {change : Nat → Member → Member}
    (same : ∀ position member, hasMark (change position member) = hasMark member)
    (members : List Member) : (members.mapIdx change).any hasMark = members.any hasMark := by
  induction members generalizing change with
  | nil => rfl
  | cons member members ih =>
    rw [List.mapIdx_cons, List.any_cons, List.any_cons, same, ih fun position => same (position + 1)]

variable (file : ClassFile) {settle : Site → AccessFlags → AccessFlags}

theorem spares_withAccess (ruled : ∀ site, AccessFlags.Ruled (settle site)) :
    spares (file.withAccess settle) = spares file := by
  have visible : (file.withAccess settle).access.contains .accSynthetic =
      file.access.contains .accSynthetic :=
    AccessFlags.contains_of_others (ruled .wholeClass file.access) (by decide)
  have flagged : (file.withAccess settle).access.contains .accEnum = file.access.contains .accEnum :=
    AccessFlags.contains_of_others (ruled .wholeClass file.access) (by decide)
  have base : (file.withAccess settle).superName = file.superName := rfl
  rw [spares, spares, ClassFile.isEnum, ClassFile.isEnum, visible, flagged, base]

theorem marked_withAccess (ruled : ∀ site, AccessFlags.Ruled (settle site)) :
    marked (file.withAccess settle) = marked file := by
  have same (site : Site) (member : Member) :
      hasMark { member with access := settle site member.access } = hasMark member :=
    AccessFlags.contains_of_others (ruled site member.access) (by decide)
  have fields := any_mapIdx (fun position => same (.member .field position)) file.fields
  have methods := any_mapIdx (fun position => same (.member .method position)) file.methods
  exact congrArg₂ (· || ·) fields methods

/-- Stripping fails, or it is a change of access values that makes no difference to rules. It is the
same one whatever rules have done to the class. -/
theorem strip_ruled_cases (file : ClassFile) :
    (∃ fault, ∀ settle : Site → AccessFlags → AccessFlags, (∀ site, AccessFlags.Ruled (settle site)) →
      strip (file.withAccess settle) = .error fault) ∨
    ∃ change found, (∀ site, AccessFlags.Aside (change site)) ∧
      ∀ settle : Site → AccessFlags → AccessFlags, (∀ site, AccessFlags.Ruled (settle site)) →
        strip (file.withAccess settle) = .ok ((file.withAccess settle).withAccess change, found) := by
  -- Rules do not touch what decides about stripping, so the class before the rules can be asked.
  cases told : spares file with
  | error fault =>
    refine .inl ⟨fault, fun settle ruled => ?_⟩
    rw [strip_eq, spares_withAccess file ruled, told]
    rfl
  | ok spared =>
    right
    cases spared with
    | true =>
      have unseen : AccessFlags.Aside fun flags => flags := ⟨fun _ => rfl, fun _ => rfl, id⟩
      refine ⟨fun _ flags => flags, false, fun _ => unseen, fun settle ruled => ?_⟩
      rw [strip_eq, spares_withAccess file ruled, told, ClassFile.withAccess_unchanged]
      rfl
    | false =>
      refine ⟨unmarks, marked file, aside_unmarks, fun settle ruled => ?_⟩
      rw [strip_eq, spares_withAccess file ruled, told, ← marked_withAccess file ruled,
        ← unmarkMembers_eq]
      rfl

theorem exists_strip {base : Option String} (based : file.superName = .ok base) :
    ∃ stripped found, strip file = .ok (stripped, found) := by
  obtain ⟨spared, told⟩ : ∃ spared, spares file = .ok spared := by
    rw [spares, ClassFile.isEnum, based]
    split
    · exact ⟨_, rfl⟩
    · split
      · exact ⟨_, rfl⟩
      · exact ⟨_, rfl⟩
  rw [strip_eq, told]
  exact ⟨_, _, rfl⟩

end Synthetic

namespace Transform

variable {symbols : SymbolMap} {bench after : Workbench} {changed : Bool}

theorem gives_access_iff : Gives (Transform.access.apply symbols) bench changed after ↔
    bench.rules.applyTo bench.tracked = .ok (after.rules, after.tracked, changed) := by
  simp only [Gives, apply, ClassWork.applyRules, ran_mk]
  cases bench.rules.applyTo bench.tracked with
  | error fault => simp
  | ok done =>
    obtain ⟨rules, tracked, found⟩ := done
    obtain ⟨tracked', rules'⟩ := after
    simp only [Prod.mk.injEq, Except.ok.injEq, Workbench.mk.injEq]
    tauto

theorem gives_strip_iff : Gives (Transform.strip.apply symbols) bench changed after ↔
    ∃ stripped, Synthetic.strip bench.tracked.current = .ok (stripped, changed) ∧
      after = { bench with tracked := { bench.tracked with current := stripped } } := by
  simp only [Gives, apply, ClassWork.strip, ran_mk]
  cases Synthetic.strip bench.tracked.current with
  | error fault => simp
  | ok done =>
    obtain ⟨stripped, found⟩ := done
    simp only [Prod.mk.injEq, Except.ok.injEq]
    constructor
    · rintro ⟨rfl, rfl⟩
      exact ⟨stripped, ⟨rfl, rfl⟩, rfl⟩
    · rintro ⟨_, ⟨rfl, rfl⟩, rfl⟩
      exact ⟨rfl, rfl⟩

theorem gives_pair_iff (first second : Transform) :
    Gives (applyAll symbols [first, second]) bench changed after ↔
      ∃ one middle two, Gives (first.apply symbols) bench one middle ∧
        Gives (second.apply symbols) middle two after ∧ changed = (one || two) := by
  simp only [applyAll, gives_bind_iff, gives_pure_iff]
  constructor
  · rintro ⟨one, middle, here, rest, left, ⟨two, last, there, _, _, ⟨rfl, rfl⟩, rfl, rfl⟩, rfl, rfl⟩
    exact ⟨one, middle, two, here, there, by rw [Bool.or_false]⟩
  · rintro ⟨one, middle, two, here, there, rfl⟩
    exact ⟨one, middle, here, two, after, ⟨two, after, there, false, after, ⟨rfl, rfl⟩,
      (Bool.or_false two).symm, rfl⟩, rfl, rfl⟩

section

variable {change : Site → AccessFlags → AccessFlags} {found : Bool}
  (strips : ∀ settle : Site → AccessFlags → AccessFlags, (∀ site, AccessFlags.Ruled (settle site)) →
    Synthetic.strip (bench.tracked.current.withAccess settle) =
      .ok ((bench.tracked.current.withAccess settle).withAccess change, found))
include strips

/-- Stripping after the rules does to what they left what it would have done to the class. -/
theorem gives_access_strip_iff : Gives (applyAll symbols [.access, .strip]) bench changed after ↔
    ∃ rules settled one, bench.rules.applyTo bench.tracked = .ok (rules, settled, one) ∧
      after = ⟨settled.withAccess change, rules⟩ ∧ changed = (one || found) := by
  simp only [gives_pair_iff, gives_access_iff, gives_strip_iff]
  constructor
  · rintro ⟨one, middle, two, applied, ⟨stripped, second, rfl⟩, rfl⟩
    -- The rules have left a class that is stripped like the one that they were given.
    obtain ⟨settle, ruled, same⟩ := RuleSet.exists_withAccess applied
    rw [same] at second
    obtain ⟨rfl, rfl⟩ := Prod.mk.inj (Except.ok.inj ((strips settle ruled).symm.trans second))
    refine ⟨middle.rules, middle.tracked, one, applied, ?_, rfl⟩
    rw [same]
    rfl
  · rintro ⟨rules, settled, one, applied, rfl, rfl⟩
    obtain ⟨settle, ruled, rfl⟩ := RuleSet.exists_withAccess applied
    exact ⟨one, ⟨_, rules⟩, found, applied, ⟨_, strips settle ruled, rfl⟩, rfl⟩

/-- The rules do to the stripped class what they would have done to it before. -/
theorem gives_strip_access_iff (aside : ∀ site, AccessFlags.Aside (change site)) :
    Gives (applyAll symbols [.strip, .access]) bench changed after ↔
      ∃ rules settled one, bench.rules.applyTo bench.tracked = .ok (rules, settled, one) ∧
        after = ⟨settled.withAccess change, rules⟩ ∧ changed = (one || found) := by
  have first := strips (fun _ flags => flags) fun _ _ => rfl
  rw [ClassFile.withAccess_unchanged] at first
  simp only [gives_pair_iff, gives_access_iff, gives_strip_iff]
  constructor
  · rintro ⟨one, middle, two, ⟨stripped, second, rfl⟩, applied, rfl⟩
    obtain ⟨rfl, rfl⟩ := Prod.mk.inj (Except.ok.inj (first.symm.trans second))
    obtain ⟨settled, applied', same⟩ := (RuleSet.applyTo_withAccess_iff aside).mp applied
    refine ⟨after.rules, settled, two, applied', ?_, Bool.or_comm found two⟩
    rw [← same]
  · rintro ⟨rules, settled, one, applied, rfl, rfl⟩
    exact ⟨found, ⟨bench.tracked.withAccess change, bench.rules⟩, one, ⟨_, first, rfl⟩,
      (RuleSet.applyTo_withAccess_iff aside).mpr ⟨settled, applied, rfl⟩, Bool.or_comm one found⟩

end

/-- Neither order gets anywhere with a class that cannot be stripped. -/
theorem gives_iff_of_unstripped {fault : Fault}
    (fails : ∀ settle : Site → AccessFlags → AccessFlags, (∀ site, AccessFlags.Ruled (settle site)) →
      Synthetic.strip (bench.tracked.current.withAccess settle) = .error fault) :
    Gives (applyAll symbols [.access, .strip]) bench changed after ↔
      Gives (applyAll symbols [.strip, .access]) bench changed after := by
  simp only [gives_pair_iff, gives_access_iff, gives_strip_iff]
  apply iff_of_false
  · rintro ⟨one, middle, two, applied, ⟨stripped, strips, -⟩, -⟩
    obtain ⟨settle, ruled, same⟩ := RuleSet.exists_withAccess applied
    rw [same] at strips
    cases (fails settle ruled).symm.trans strips
  · rintro ⟨one, middle, two, ⟨stripped, strips, -⟩, -⟩
    have first := fails (fun _ flags => flags) fun _ _ => rfl
    rw [ClassFile.withAccess_unchanged] at first
    cases first.symm.trans strips

/-- A class may be stripped before its rules are applied or afterwards. It comes out as the same class,
with the same ledger and the same word on whether anything changed, and it comes out if its own name and
that of its superclass can be read. -/
theorem applyAll_access_strip (symbols : SymbolMap) (bench : Workbench) :
    (∀ changed after, Gives (applyAll symbols [.access, .strip]) bench changed after ↔
      Gives (applyAll symbols [.strip, .access]) bench changed after) ∧
    ∀ name base, bench.tracked.current.name = .ok name → bench.tracked.current.superName = .ok base →
      ∃ changed after, Gives (applyAll symbols [.access, .strip]) bench changed after := by
  -- If stripping fails before the rules it fails after them, so neither order gives a class.
  rcases Synthetic.strip_ruled_cases bench.tracked.current with
    ⟨fault, fails⟩ | ⟨change, found, aside, strips⟩
  · constructor
    · intro changed after
      exact gives_iff_of_unstripped fails
    · -- No class with readable names fails to be stripped, so this case is ruled out.
      intro name base named based
      obtain ⟨stripped, found, strips⟩ := Synthetic.exists_strip _ based
      have first := fails (fun _ flags => flags) fun _ _ => rfl
      rw [ClassFile.withAccess_unchanged] at first
      cases first.symm.trans strips
  · constructor
    · intro changed after
      exact (gives_access_strip_iff strips).trans (gives_strip_access_iff strips aside).symm
    · intro name base named based
      have leaves : bench.rules.Leaves bench.tracked _ := RuleSet.leaves_settled named
      obtain ⟨ledger, one, applied⟩ := leaves
      exact ⟨_, _, (gives_access_strip_iff strips).mpr ⟨_, _, one, applied, rfl, rfl⟩⟩

/-- The class `B` was `A` before. Its synthetic field `x` is public and private at once. -/
def hiddenField : TrackedClass :=
  ⟨⟨0, 52, .ofEntries [.unusable, .utf8 "B", .classRef 1, .utf8 "x", .utf8 "I"], ⟨0x20⟩, 2, 0, [],
    [⟨⟨0x1003⟩, 3, 4, []⟩], [], []⟩, ⟨"A", none, [("x", "I")], []⟩⟩

/-- A rule for the field, and one for fields that are there only under another name. -/
def fieldRules (effective : Bool) : RuleSet :=
  ⟨.empty, [⟨.prot, .set, "B", some ⟨"x", none⟩⟩, ⟨.pub, .set, "A", some ⟨"y", none⟩⟩],
    ⟨[⟨"B x", "protected+f B x", effective, ⟨"rules.cfg", 1⟩⟩]⟩, []⟩

theorem applyAll_access_strip_hiddenField :
    hiddenField.current.name = .ok "B" ∧ hiddenField.current.superName = .ok none ∧
    Gives (applyAll ⟨⟨[]⟩, .empty⟩ [.strip, .access]) ⟨hiddenField, fieldRules false⟩ true
      ⟨hiddenField.withAccess fun site flags => if site = .wholeClass then flags else ⟨0x10⟩,
        fieldRules true⟩ ∧
    ∃ changed after,
      Gives (applyAll ⟨⟨[]⟩, .empty⟩ [.access, .strip]) ⟨hiddenField, fieldRules false⟩ changed after := by
  have named : hiddenField.current.name = .ok "B" := by decide +kernel
  have based : hiddenField.current.superName = .ok none := rfl
  obtain ⟨either, both⟩ := applyAll_access_strip ⟨⟨[]⟩, .empty⟩ ⟨hiddenField, fieldRules false⟩
  refine ⟨named, based, (either _ _).mp ?_, both "B" none named based⟩
  exact Prod.ext (by decide +kernel) (by decide +kernel)

end Transform

end JarRemap
