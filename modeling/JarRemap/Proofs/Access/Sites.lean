import JarRemap.Access.RuleSet
import JarRemap.Proofs.Access.Merge
import JarRemap.Proofs.Outcome

/-!
# What a rule hits

The class and each of its members have an access value. A rule is for some of these, and which ones
follows from names alone. So however many rules are applied in turn, each access value is merged with
the rules that hit it, and nothing else happens to the class.
-/

namespace JarRemap

namespace ClassFile

/-! ## Access values -/

/-- The access value of the class or of a member. -/
def accessAt (file : ClassFile) : Site → Option AccessFlags
  | .wholeClass => some file.access
  | .member kind position => (file.members kind)[position]?.map Member.access

/-- The class with other access values, and nothing else changed. -/
def withAccess (file : ClassFile) (change : Site → AccessFlags → AccessFlags) : ClassFile :=
  let changed (kind : MemberKind) : List Member :=
    (file.members kind).mapIdx fun position member =>
      { member with access := change (.member kind position) member.access }
  { file with
    access := change .wholeClass file.access
    fields := changed .field
    methods := changed .method }

variable (file : ClassFile) (change : Site → AccessFlags → AccessFlags)

theorem members_withAccess (kind : MemberKind) :
    (file.withAccess change).members kind = (file.members kind).mapIdx fun position member =>
      { member with access := change (.member kind position) member.access } := by
  cases kind <;> rfl

theorem accessAt_withAccess (site : Site) :
    (file.withAccess change).accessAt site = (file.accessAt site).map (change site) := by
  cases site with
  | wholeClass => rfl
  | member kind position =>
    rw [accessAt, accessAt, members_withAccess, List.getElem?_mapIdx]
    cases (file.members kind)[position]? <;> rfl

theorem withAccess_withAccess (again : Site → AccessFlags → AccessFlags) :
    (file.withAccess change).withAccess again =
      file.withAccess fun site flags => again site (change site flags) := by
  simp [withAccess, members, List.mapIdx_mapIdx, Function.comp_def]

/-- Changes that do the same to every access value there is lead to the same class. -/
theorem withAccess_eq_iff (other : Site → AccessFlags → AccessFlags) :
    file.withAccess change = file.withAccess other ↔
      ∀ site flags, file.accessAt site = some flags → change site flags = other site flags := by
  constructor
  · intro same site flags here
    have there := congrArg (accessAt · site) same
    simp only [accessAt_withAccess, here, Option.map_some, Option.some.injEq] at there
    exact there
  · intro same
    have members (kind : MemberKind) :
        (file.withAccess change).members kind = (file.withAccess other).members kind := by
      refine List.ext_getElem? fun position => ?_
      rw [members_withAccess, members_withAccess, List.getElem?_mapIdx, List.getElem?_mapIdx]
      cases here : (file.members kind)[position]? with
      | none => rfl
      | some member =>
        have agree := same (.member kind position) member.access (by rw [accessAt, here, Option.map_some])
        rw [Option.map_some, Option.map_some, agree]
    -- All but the access values are equal as they stand.
    have class_ := same .wholeClass file.access rfl
    have fields := members .field
    have methods := members .method
    simp only [withAccess, mk.injEq] at fields methods ⊢
    simp only [ClassFile.members] at fields methods
    exact ⟨trivial, trivial, trivial, class_, trivial, trivial, trivial, fields, methods, trivial⟩

private theorem mapIdx_unchanged {change : Nat → AccessFlags → AccessFlags}
    (same : ∀ position flags, change position flags = flags) (members : List Member) :
    members.mapIdx (fun position member =>
      { member with access := change position member.access }) = members := by
  refine List.ext_getElem? fun position => ?_
  simp only [List.getElem?_mapIdx, same]
  exact Option.map_id'

variable {file change}

/-- Only the access value of the class itself is new. -/
theorem withAccess_class
    (members : ∀ kind position flags, change (.member kind position) flags = flags) :
    file.withAccess change = { file with access := change .wholeClass file.access } := by
  have fields := mapIdx_unchanged (members .field) file.fields
  have methods := mapIdx_unchanged (members .method) file.methods
  simp only [withAccess, ClassFile.members, fields, methods]

theorem withAccess_unchanged (file : ClassFile) : file.withAccess (fun _ flags => flags) = file :=
  withAccess_class fun _ _ _ => rfl

/-- Only members of one kind have new access values. -/
theorem withAccess_members {kind : MemberKind}
    (class_ : change .wholeClass file.access = file.access)
    (others : ∀ other, other ≠ kind → ∀ position flags, change (.member other position) flags = flags) :
    file.withAccess change = file.withMembers kind ((file.withAccess change).members kind) := by
  cases kind with
  | field =>
    have methods := mapIdx_unchanged (others .method (by decide)) file.methods
    simp only [withAccess, withMembers, members, class_, methods]
  | method =>
    have fields := mapIdx_unchanged (others .field (by decide)) file.fields
    simp only [withAccess, withMembers, members, class_, fields]

end ClassFile

/-! ## Matching -/

/-- The descriptor is the one that the member has now or the one that it had at first, if there is any that
it has to have. -/
def MemberNaming.Has (naming : MemberNaming) (descriptor : Option String) : Prop :=
  ∀ wanted, descriptor = some wanted →
    naming.descriptor = wanted ∨ ∃ name, naming.first = some (name, wanted)

theorem MemberNaming.hasDescriptor_iff {naming : MemberNaming} {descriptor : Option String} :
    naming.hasDescriptor descriptor = true ↔ naming.Has descriptor := by
  cases descriptor with
  | none => simp [hasDescriptor, Has]
  | some wanted => simp [hasDescriptor, Has, Option.any_eq_true]

namespace TrackedClass

/-- The class with other access values. Its names are what they were. -/
def withAccess (tracked : TrackedClass) (change : Site → AccessFlags → AccessFlags) : TrackedClass :=
  { tracked with current := tracked.current.withAccess change }

variable (tracked : TrackedClass)

/-- The member at the position is the one that a rule calls by this name. Its first name counts only
if no member is called so now, and its descriptor may be the current or the first one. -/
def isCalled (kind : MemberKind) (position : Nat) (name : String) (descriptor : Option String) : Bool :=
  let namings := tracked.namings kind
  match namings[position]? with
  | none => false
  | some naming =>
    naming.hasDescriptor descriptor && (naming.name == name || naming.first.any (·.1 == name) &&
      !namings.any fun other => other.name == name && other.hasDescriptor descriptor)

theorem isCalled_iff {kind : MemberKind} {position : Nat} {name : String} {descriptor : Option String} :
    tracked.isCalled kind position name descriptor = true ↔
      ∃ naming, (tracked.namings kind)[position]? = some naming ∧ naming.Has descriptor ∧
        (naming.name = name ∨ (∃ text, naming.first = some (name, text)) ∧
          ∀ other ∈ tracked.namings kind, other.name = name → ¬ other.Has descriptor) := by
  simp only [← MemberNaming.hasDescriptor_iff]
  rw [isCalled]
  cases (tracked.namings kind)[position]? with
  | none => simp
  | some naming => simp [Option.any_eq_true]

theorem matching_getElem? (kind : MemberKind) (name : String) (descriptor : Option String)
    (position : Nat) :
    (tracked.matching kind name descriptor)[position]? =
      (tracked.current.members kind)[position]?.map fun _ =>
        tracked.isCalled kind position name descriptor := by
  have whole (holds : MemberNaming → Bool) : ((tracked.namings kind).map holds)[position]? =
      (tracked.current.members kind)[position]?.map fun _ =>
        ((tracked.namings kind)[position]?.map holds).getD false := by
    simp only [namings, List.getElem?_map, List.getElem?_zipIdx]
    cases (tracked.current.members kind)[position]? <;> rfl
  rw [matching, isCalled]
  cases here : (tracked.namings kind)[position]? with
  | none => split <;> rw [whole, here] <;> rfl
  | some naming =>
    have among := List.mem_of_getElem? here
    split
    next current =>
      have current' : (tracked.namings kind).any
          (fun other => other.name == name && other.hasDescriptor descriptor) = true := current
      rw [whole, here, current']
      simp [MemberNaming.matchesCurrent, Bool.and_comm]
    next missing =>
      -- Then this member is not called so now either.
      have missing' : (tracked.namings kind).any
          (fun other => other.name == name && other.hasDescriptor descriptor) = false :=
        Bool.eq_false_iff.mpr missing
      have other := List.any_eq_false.mp missing' naming among
      rw [whole, here, missing']
      simp only [Option.map_some, Option.getD_some, MemberNaming.matchesFirst]
      cases called : naming.name == name <;> cases described : naming.hasDescriptor descriptor <;>
        simp [called, described] at other ⊢

/-- Other access values make no difference to names. -/
theorem namings_withAccess (change : Site → AccessFlags → AccessFlags) (kind : MemberKind) :
    namings { tracked with current := tracked.current.withAccess change } kind =
      tracked.namings kind := by
  refine List.ext_getElem? fun position => ?_
  simp only [namings, ClassFile.members_withAccess, List.getElem?_map, List.getElem?_zipIdx,
    List.getElem?_mapIdx]
  cases (tracked.current.members kind)[position]? <;> rfl

end TrackedClass

namespace AccessRule

variable (rule : AccessRule) (tracked : TrackedClass)

/-- The rule is for the class itself, or for the member there. -/
def hits : Site → Bool
  | .wholeClass => rule.target == .wholeClass
  | .member kind position =>
    match rule.target with
    | .wholeClass => false
    | .field name => kind == .field && tracked.isCalled .field position name none
    | .method name descriptor =>
      kind == .method && tracked.isCalled .method position name (some descriptor)
    | .allFields => kind == .field
    | .allMethods => kind == .method

theorem hits_withAccess (change : Site → AccessFlags → AccessFlags) :
    rule.hits { tracked with current := tracked.current.withAccess change } = rule.hits tracked := by
  funext site
  cases site with
  | wholeClass => rfl
  | member kind position => simp only [hits, TrackedClass.isCalled, TrackedClass.namings_withAccess]

/-- A rule selects either the class itself or members of one kind, and these are what it hits. -/
private theorem selection_cases :
    (rule.selection tracked = none ∧ rule.hits tracked .wholeClass = true ∧
      ∀ kind position, rule.hits tracked (.member kind position) = false) ∨
    ∃ kind selected, rule.selection tracked = some (kind, selected) ∧
      rule.hits tracked .wholeClass = false ∧
      (∀ position : Nat, selected[position]? = (tracked.current.members kind)[position]?.map fun _ =>
        rule.hits tracked (.member kind position)) ∧
      ∀ other position, other ≠ kind → rule.hits tracked (.member other position) = false := by
  -- A target with a name selects the members that match it, and one without a name all of its kind.
  cases target : rule.target with
  | wholeClass => exact .inl (by simp [selection, hits, target])
  | field name =>
    refine .inr ⟨.field, tracked.matching .field name none, by simp [selection, target],
      by simp [hits, target], fun position => ?_, by simp +contextual [hits, target]⟩
    simp [hits, target, tracked.matching_getElem?]
  | method name descriptor =>
    refine .inr ⟨.method, tracked.matching .method name (some descriptor),
      by simp [selection, target], by simp [hits, target], fun position => ?_,
      by simp +contextual [hits, target]⟩
    simp [hits, target, tracked.matching_getElem?]
  | allFields =>
    refine .inr ⟨.field, tracked.current.fields.map fun _ => true, by simp [selection, target],
      by simp [hits, target], fun position => ?_, by simp +contextual [hits, target]⟩
    simp only [hits, target, List.getElem?_map, ClassFile.members, BEq.rfl]
  | allMethods =>
    refine .inr ⟨.method, tracked.current.methods.map fun _ => true, by simp [selection, target],
      by simp [hits, target], fun position => ?_, by simp +contextual [hits, target]⟩
    simp only [hits, target, List.getElem?_map, ClassFile.members, BEq.rfl]

/-- The rule merged into whatever it hits. -/
def merges (site : Site) (flags : AccessFlags) : AccessFlags :=
  if rule.hits tracked site then flags.merged rule else flags

/-- Applying a rule merges it into what it hits, and does nothing else. -/
theorem applied_eq :
    (rule.applied tracked).1 =
      { tracked with current := tracked.current.withAccess (rule.merges tracked) } := by
  rcases rule.selection_cases tracked with
    ⟨selects, class_, members⟩ | ⟨kind, selected, selects, class_, here, others⟩
  · have merged : tracked.current.withAccess (rule.merges tracked) =
        { tracked.current with access := tracked.current.access.merged rule } := by
      rw [ClassFile.withAccess_class fun kind position flags => by simp [merges, members],
        merges, if_pos class_]
    simp only [applied, selects, merged]
  · -- Members of the kind are merged one by one. Those of the other kind and the class itself are
    -- not hit.
    have merged : (tracked.current.withAccess (rule.merges tracked)).members kind =
        List.zipWith rule.mergeMember (tracked.current.members kind) selected := by
      refine List.ext_getElem? fun position => ?_
      rw [ClassFile.members_withAccess, List.getElem?_mapIdx, List.getElem?_zipWith, here]
      cases (tracked.current.members kind)[position]? with
      | none => rfl
      | some member =>
        simp only [Option.map_some, merges, mergeMember]
        cases rule.hits tracked (.member kind position) <;> rfl
    have whole : tracked.current.withAccess (rule.merges tracked) = tracked.current.withMembers kind
        ((tracked.current.withAccess (rule.merges tracked)).members kind) := by
      refine ClassFile.withAccess_members ?_ fun other different position flags => ?_
      · simp [merges, class_]
      · simp [merges, others other position different]
    rw [whole, merged]
    simp only [applied, selects]

theorem applied_unmatched (unmatched : (rule.applied tracked).2 = false) :
    (rule.applied tracked).1 = tracked := by
  rcases rule.selection_cases tracked with
    ⟨selects, -, -⟩ | ⟨kind, selected, selects, class_, here, others⟩
  · simp [applied, selects] at unmatched
  · -- Only members can be missed, as a rule for the class itself always matches.
    have nothing : selected.any id = false := by simpa only [applied, selects] using unmatched
    have missed : ∀ site flags, tracked.current.accessAt site = some flags →
        rule.merges tracked site flags = flags := by
      intro site flags found
      refine if_neg (Bool.eq_false_iff.mp ?_)
      cases site with
      | wholeClass => exact class_
      | member other position =>
        by_cases same : other = kind
        · subst same
          obtain ⟨member, there, -⟩ := Option.map_eq_some_iff.mp found
          have selects := here position
          rw [there] at selects
          exact Bool.eq_false_iff.mpr (List.any_eq_false.mp nothing _ (List.mem_of_getElem? selects))
        · exact others other position same
    have unchanged := ((tracked.current.withAccess_eq_iff _ _).mpr missed).trans
      tracked.current.withAccess_unchanged
    rw [applied_eq, unchanged]

end AccessRule

namespace RuleSet

/-- Rules that are applied in turn are merged, in this order, into whatever they hit. -/
theorem applyAll_eq (rules : List AccessRule) (tracked : TrackedClass) (ledger : Ledger) :
    (applyAll rules tracked ledger).1 =
      { tracked with
        current := tracked.current.withAccess fun site flags =>
          flags.mergedAll (rules.filter (·.hits tracked site)) } := by
  induction rules generalizing tracked ledger with
  | nil =>
    exact congrArg (fun file => { tracked with current := file })
      tracked.current.withAccess_unchanged.symm
  | cons rule rules ih =>
    -- What is noted in the ledger on the way has no influence on the class.
    obtain ⟨noted, step⟩ : ∃ noted, (applyAll (rule :: rules) tracked ledger).1 =
        (applyAll rules (rule.applied tracked).1 noted).1 := by
      simp only [applyAll, AccessRule.apply]
      cases (rule.applied tracked).2 with
      | true => exact ⟨_, rfl⟩
      | false => exact ⟨_, rfl⟩
    have merged (site : Site) (flags : AccessFlags) :
        (rule.merges tracked site flags).mergedAll (rules.filter (·.hits tracked site)) =
          flags.mergedAll ((rule :: rules).filter (·.hits tracked site)) := by
      rw [AccessRule.merges, List.filter_cons]
      by_cases hit : rule.hits tracked site
      · rw [if_pos hit, if_pos hit, AccessFlags.mergedAll, AccessFlags.mergedAll, List.foldl_cons]
      · rw [if_neg hit, if_neg hit]
    rw [step, ih, rule.applied_eq]
    simp only [ClassFile.withAccess_withAccess, AccessRule.hits_withAccess, merged]

/-- Rules for a class change access values, and in them nothing that rules are not about. -/
theorem exists_withAccess {set after : RuleSet} {tracked last : TrackedClass} {changed : Bool}
    (applied : set.applyTo tracked = .ok (after, last, changed)) :
    ∃ settle : Site → AccessFlags → AccessFlags,
      (∀ site, AccessFlags.Ruled (settle site)) ∧ last = tracked.withAccess settle := by
  rw [applyTo] at applied
  obtain ⟨name, -, applied⟩ := (bind_ok_iff _ _ _).mp applied
  obtain ⟨-, rest⟩ := Prod.mk.inj (Except.ok.inj applied)
  have merged := applyAll_eq (set.candidates tracked.first.name name) tracked set.ledger
  rw [(Prod.mk.inj rest).1] at merged
  exact ⟨_, fun site => AccessFlags.ruled_mergedAll _, merged⟩

end RuleSet

end JarRemap
