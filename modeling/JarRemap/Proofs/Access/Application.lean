import JarRemap.ClassFile.Format
import JarRemap.Proofs.Access.Sites
import JarRemap.Proofs.Edit

/-!
# All rules for a class

Applying a set of rules to a class comes to one merge for each access value of the class, with the
rules that hit it. From this follows what each access value is afterwards, when the order of the
rules matters, and when applying the rules a second time changes the class again.
-/

namespace JarRemap

/-- What the rules make of an access value. The visibility is the widest one, the last rule that says
anything about finality decides on that, and all other bits are as before. -/
structure AccessFlags.Settled (rules : List AccessRule) (before after : AccessFlags) : Prop where
  visibility : ∃ old new : Visibility, before.visibility = old.flags ∧ after.visibility = new.flags ∧
    Widest rules old new
  finality : after.isFinal =
    match decisive? rules with
    | some rule => rule.finality == .set
    | none => before.isFinal
  others : after.others = before.others

namespace RuleSet

variable (set : RuleSet) (tracked : TrackedClass)

/-- The rules for the class, which has this name now, or for one of its members. They are in the order
in which they are applied. -/
def hitting (name : String) (site : Site) : List AccessRule :=
  (set.candidates tracked.first.name name).filter (·.hits tracked site)

/-- Applying the rules to the class succeeds and makes `after` of it. -/
def Leaves (after : TrackedClass) : Prop :=
  ∃ ledger changed, set.applyTo tracked = .ok ({ set with ledger := ledger }, after, changed)

/-- Each access value is merged with the rules that hit it. -/
def settling (name : String) (site : Site) (flags : AccessFlags) : AccessFlags :=
  flags.mergedAll (set.hitting tracked name site)

variable {set tracked}

theorem leaves_settled {name : String} (named : tracked.current.name = .ok name) :
    set.Leaves tracked
      { tracked with current := tracked.current.withAccess (set.settling tracked name) } := by
  have merged := applyAll_eq (set.candidates tracked.first.name name) tracked set.ledger
  rw [Leaves, applyTo, named]
  exact ⟨_, _, congrArg (fun after => Except.ok (_, after, _)) merged⟩

theorem applyTo_unnamed {fault : Fault} (unnamed : tracked.current.name = .error fault) :
    set.applyTo tracked = .error fault := by
  rw [applyTo, unnamed]
  rfl

/-- The class `A` is called `B` by now, its private field `x` is called `y`, and its private and final
method `m`, which takes the class, is called `n`. -/
def renamedOnce : TrackedClass :=
  ⟨⟨0, 52, .ofEntries [.unusable, .utf8 "B", .classRef 1, .utf8 "y", .utf8 "I", .utf8 "n",
    .utf8 "(LB;)V"], ⟨0x20⟩, 2, 0, [], [⟨⟨0x0A⟩, 3, 4, []⟩], [⟨⟨0x12⟩, 5, 6, []⟩], []⟩,
    ⟨"A", none, [("x", "I")], [("m", "(LA;)V")]⟩⟩

/-- Applied to what they have made of a class, the rules leave the class as it is, unless there was an
access value that stood for no visibility. There the first rule that hits it does not take effect,
and does so the second time if no later rule asks for as much. -/
theorem applyTo_again_iff (set : RuleSet) (tracked : TrackedClass) :
    (∀ fault, tracked.current.name = .error fault → set.applyTo tracked = .error fault) ∧
    ∀ name, tracked.current.name = .ok name →
      ∃ marked once changed, set.applyTo tracked = .ok (marked, once, changed) ∧
        ∃ twice, marked.Leaves once twice ∧
          (twice = once ↔ ∀ site flags, tracked.current.accessAt site = some flags →
            (∀ visibility : Visibility, flags.visibility ≠ visibility.flags) →
            AccessFlags.Covered (set.hitting tracked name site)) := by
  refine ⟨fun fault unnamed => applyTo_unnamed unnamed, fun name named => ?_⟩
  have leaves : set.Leaves tracked _ := leaves_settled named
  obtain ⟨ledger, changed, applied⟩ := leaves
  refine ⟨_, _, changed, applied, _, leaves_settled named, ?_⟩
  -- Access values are no part of names, so the same rules hit.
  have settling : settling { set with ledger := ledger }
      { tracked with current := tracked.current.withAccess (set.settling tracked name) } name =
        set.settling tracked name := by
    funext site flags
    simp only [RuleSet.settling, hitting, AccessRule.hits_withAccess]
    rfl
  simp only [TrackedClass.mk.injEq, and_true, settling, ClassFile.withAccess_withAccess,
    ClassFile.withAccess_eq_iff]
  simp only [RuleSet.settling, AccessFlags.mergedAll_mergedAll_iff]

/-- A class `A` that is public and private at once. -/
def openAndHidden : Bytes :=
  [0xCA, 0xFE, 0xBA, 0xBE, 0, 0, 0, 52, 0, 3, 1, 0, 1, 0x41, 7, 0, 1, 0, 3, 0, 2, 0, 0, 0, 0, 0, 0,
    0, 0, 0, 0]

/-- The same class as it is read, with any access value. -/
def openAndHiddenAs (access : AccessFlags) : TrackedClass :=
  ⟨⟨0, 52, .ofEntries [.unusable, .utf8 "A", .classRef 1], access, 2, 0, [], [], [], []⟩,
    ⟨"A", none, [], []⟩⟩

/-- The rule that opens the class, and whether it ever did. -/
def opening (effective : Bool) : RuleSet :=
  ⟨.empty, [⟨.pub, .keep, "A", none⟩], ⟨[⟨"A", "public A", effective, ⟨"rules.cfg", 1⟩⟩]⟩, []⟩

/-- Applied a second time, a rule may change the class once more. -/
theorem applyTo_again_widens :
    ∃ file tracked set once marked twice after, ClassFile.decode openAndHidden = .ok file ∧
      TrackedClass.ofClass file = .ok tracked ∧
      Gives (loadLine "public A" ⟨"rules.cfg", 1⟩) (.new .empty) true set ∧
      set.applyTo tracked = .ok (marked, once, true) ∧
      marked.applyTo once = .ok (after, twice, true) ∧ twice.current ≠ once.current := by
  refine ⟨(openAndHiddenAs ⟨3⟩).current, openAndHiddenAs ⟨3⟩, opening false, openAndHiddenAs ⟨0⟩,
    opening true, openAndHiddenAs ⟨1⟩, opening true, ?_, ?_, ?_, ?_, ?_, ?_⟩
  · decide +kernel
  · decide +kernel
  · exact Prod.ext (by decide +kernel) (by decide +kernel)
  · decide +kernel
  · decide +kernel
  · decide

end RuleSet

end JarRemap
