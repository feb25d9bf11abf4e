import JarRemap.Access.Merge
import Mathlib.Data.List.Induction
import Mathlib.Order.Bounds.Basic
import Mathlib.Order.MinMax

/-!
# Merging rules one after another

An access value has three parts that a merge handles on their own: its visibility, its finality, and
all other bits. For the first one a merge takes the wider of two visibilities, so several merges come
to the widest of all. Of the second one, the last rule that cares decides.
-/

namespace JarRemap

namespace Visibility

/-- How many may use what is visible like this. -/
def rank : Visibility → Nat
  | priv => 0
  | pkg => 1
  | prot => 2
  | pub => 3

private theorem rank_injective : Function.Injective rank := by
  intro first second same
  cases first <;> cases second <;> first | rfl | cases same

/-- Private is the narrowest, then package, protected and public. -/
instance : LinearOrder Visibility := LinearOrder.lift' rank rank_injective

theorem wider_eq_max (current asked : Visibility) : current.wider asked = max current asked := by
  cases current <;> cases asked <;> decide

theorem flags_injective : Function.Injective flags := by
  intro first second same
  cases first <;> cases second <;> first | rfl | exact absurd same (by decide)

theorem visibility_flags (visibility : Visibility) : visibility.flags.visibility = visibility.flags := by
  cases visibility <;> decide

theorem ofFlags?_eq_some_iff (flags : AccessFlags) (visibility : Visibility) :
    ofFlags? flags = some visibility ↔ flags.visibility = visibility.flags := by
  constructor
  · intro found
    simpa using List.find?_some found
  · intro shown
    rw [ofFlags?, shown]
    cases visibility <;> decide

end Visibility

namespace AccessFlags

/-! ## The three parts -/

/-- The bits that no rule is about. -/
def others (flags : AccessFlags) : AccessFlags := flags.without (visibilityMask.union accFinal)

def isFinal (flags : AccessFlags) : Bool := flags.contains accFinal

private theorem and_or (a b c : UInt16) : a &&& (b ||| c) = a &&& b ||| a &&& c :=
  UInt16.toBitVec_inj.mp BitVec.and_or_distrib_left

private theorem or_and (a b c : UInt16) : (a ||| b) &&& c = a &&& c ||| b &&& c :=
  UInt16.toBitVec_inj.mp BitVec.and_or_distrib_right

private theorem final_bit (bits : UInt16) : bits &&& 0x10 = 0 ∨ bits &&& 0x10 = 0x10 := by
  have masked : bits.toBitVec &&& 0x10 = if bits.toBitVec.getLsbD 4 then 0x10 else 0 :=
    BitVec.and_twoPow bits.toBitVec 4
  by_cases set : bits.toBitVec.getLsbD 4
  · rw [if_pos set] at masked
    exact .inr (UInt16.toBitVec_inj.mp masked)
  · rw [if_neg set] at masked
    exact .inl (UInt16.toBitVec_inj.mp masked)

/-- An access value is known by its parts. -/
theorem eq_of_parts {first second : AccessFlags} (visibility : first.visibility = second.visibility)
    (final : first.isFinal = second.isFinal) (others : first.others = second.others) :
    first = second := by
  obtain ⟨a⟩ := first
  obtain ⟨b⟩ := second
  -- The three masks have every bit between them.
  have parts : ∀ bits : UInt16, bits = bits &&& 7 ||| (bits &&& 0x10 ||| bits &&& ~~~(7 ||| 0x10)) := by
    intro bits
    rw [← and_or, ← and_or, show (7 ||| (0x10 ||| ~~~(7 ||| 0x10)) : UInt16) = -1 by decide]
    exact (UInt16.and_neg_one).symm
  have low : a &&& 7 = b &&& 7 := congrArg AccessFlags.bits visibility
  have rest : a &&& ~~~(7 ||| 0x10) = b &&& ~~~(7 ||| 0x10) := congrArg AccessFlags.bits others
  have middle : a &&& 0x10 = b &&& 0x10 := by
    have same : (a &&& 0x10 == 0x10) = (b &&& 0x10 == 0x10) := final
    rcases final_bit a with here | here <;> rcases final_bit b with there | there
    · rw [here, there]
    · rw [here, there] at same
      exact absurd same (by decide)
    · rw [here, there] at same
      exact absurd same (by decide)
    · rw [here, there]
  rw [parts a, parts b, low, middle, rest]

private theorem and_outside {bits mask : UInt16} (apart : bits &&& mask = 0) :
    ~~~bits &&& mask = mask := by
  have all : (bits ||| ~~~bits) &&& mask = mask := by
    rw [UInt16.or_not_self, UInt16.neg_one_and]
  rw [or_and, apart, UInt16.zero_or] at all
  exact all

section

variable (flags : AccessFlags) {mask : UInt16}

/-- A new visibility leaves all bits alone that have nothing to do with visibility. -/
private theorem withVisibility_outside (shown : AccessFlags) (apart : visibilityMask.bits &&& mask = 0) :
    (flags.withVisibility shown).bits &&& mask = flags.bits &&& mask := by
  rw [withVisibility, union, without, visibility, or_and, UInt16.and_assoc, and_outside apart,
    UInt16.and_assoc, apart, UInt16.and_zero, UInt16.or_zero]

/-- And finality leaves all bits alone but one. -/
private theorem withFinality_outside (finality : Finality) (apart : accFinal.bits &&& mask = 0) :
    (flags.withFinality finality).bits &&& mask = flags.bits &&& mask := by
  cases finality with
  | set => rw [withFinality, union, or_and, apart, UInt16.or_zero]
  | clear => rw [withFinality, without, UInt16.and_assoc, and_outside apart]
  | keep => rfl

theorem visibility_withVisibility (shown : AccessFlags) :
    (flags.withVisibility shown).visibility = shown.visibility := by
  have cleared : (~~~visibilityMask.bits &&& visibilityMask.bits : UInt16) = 0 := by decide
  rw [withVisibility, union, without, visibility, visibility, or_and, UInt16.and_assoc, cleared,
    UInt16.and_zero, UInt16.zero_or, UInt16.and_assoc, UInt16.and_self]

theorem isFinal_withVisibility (shown : AccessFlags) :
    (flags.withVisibility shown).isFinal = flags.isFinal := by
  rw [isFinal, contains, withVisibility_outside flags shown (by decide)]
  rfl

theorem others_withVisibility (shown : AccessFlags) :
    (flags.withVisibility shown).others = flags.others :=
  congrArg AccessFlags.mk (withVisibility_outside flags shown (by decide))

theorem visibility_withFinality (finality : Finality) :
    (flags.withFinality finality).visibility = flags.visibility :=
  congrArg AccessFlags.mk (withFinality_outside flags finality (by decide))

theorem others_withFinality (finality : Finality) :
    (flags.withFinality finality).others = flags.others :=
  congrArg AccessFlags.mk (withFinality_outside flags finality (by decide))

theorem isFinal_withFinality (finality : Finality) :
    (flags.withFinality finality).isFinal =
      match finality with
      | .set => true
      | .clear => false
      | .keep => flags.isFinal := by
  cases finality with
  | set =>
    have set : (flags.bits ||| accFinal.bits) &&& accFinal.bits = accFinal.bits := by
      rw [or_and, UInt16.and_self]
      rcases final_bit flags.bits with bit | bit
      · rw [show flags.bits &&& accFinal.bits = 0 from bit, UInt16.zero_or]
      · rw [show flags.bits &&& accFinal.bits = accFinal.bits from bit, UInt16.or_self]
    exact congrArg (· == accFinal.bits) set
  | clear =>
    have cleared : flags.bits &&& ~~~accFinal.bits &&& accFinal.bits = 0 := by
      rw [UInt16.and_assoc, show (~~~accFinal.bits &&& accFinal.bits : UInt16) = 0 by decide,
        UInt16.and_zero]
    exact congrArg (· == accFinal.bits) cleared
  | keep => rfl

end

/-! ## One merge -/

variable (flags : AccessFlags) (rule : AccessRule)

/-- Flags that stand for a visibility get the wider one. -/
theorem visibility_merged {current : Visibility} (shown : flags.visibility = current.flags) :
    (flags.merged rule).visibility = (max current rule.visibility).flags := by
  rw [merged, visibility_withFinality, widened, visibility_withVisibility,
    (Visibility.ofFlags?_eq_some_iff flags current).mpr shown]
  exact (Visibility.visibility_flags _).trans (congrArg _ (current.wider_eq_max rule.visibility))

/-- Flags with several visibility bits lose them, whatever the rule asks for. -/
theorem visibility_merged_mixed (mixed : ∀ visibility : Visibility, flags.visibility ≠ visibility.flags) :
    (flags.merged rule).visibility = Visibility.pkg.flags := by
  have unclear : Visibility.ofFlags? flags = none := by
    refine Option.eq_none_iff_forall_ne_some.mpr fun visibility found => ?_
    exact mixed visibility ((Visibility.ofFlags?_eq_some_iff flags visibility).mp found)
  rw [merged, visibility_withFinality, widened, visibility_withVisibility, unclear]
  exact Visibility.visibility_flags .pkg

theorem isFinal_merged :
    (flags.merged rule).isFinal =
      match rule.finality with
      | .set => true
      | .clear => false
      | .keep => flags.isFinal := by
  rw [merged, isFinal_withFinality, widened, isFinal_withVisibility]

theorem others_merged : (flags.merged rule).others = flags.others := by
  rw [merged, others_withFinality, widened, others_withVisibility]

/-! ## Many merges -/

/-- The flags after all rules, in turn. -/
def mergedAll (flags : AccessFlags) (rules : List AccessRule) : AccessFlags :=
  rules.foldl merged flags

/-- The widest of some visibility and those that rules ask for. -/
def Widest (rules : List AccessRule) (before after : Visibility) : Prop :=
  IsGreatest {visibility | visibility = before ∨ ∃ rule ∈ rules, rule.visibility = visibility} after

theorem Widest.unique {rules others : List AccessRule} {before first second : Visibility}
    (same : ∀ rule, rule ∈ rules ↔ rule ∈ others) (here : Widest rules before first)
    (there : Widest others before second) : second = first := by
  simp only [Widest, same] at here
  exact IsGreatest.unique there here

variable {flags}

theorem exists_widest (rules : List AccessRule) {before : Visibility}
    (shown : flags.visibility = before.flags) :
    ∃ after, (flags.mergedAll rules).visibility = after.flags ∧ Widest rules before after := by
  -- The rest of the rules meets the wider of what there was and what the first rule asks for.
  induction rules generalizing flags before with
  | nil =>
    refine ⟨before, shown, .inl rfl, ?_⟩
    rintro visibility (rfl | ⟨rule, member, -⟩)
    · exact le_refl visibility
    · cases member
  | cons rule rules ih =>
    obtain ⟨after, shown', among, above⟩ := ih (visibility_merged flags rule shown)
    have bound : max before rule.visibility ≤ after := above (.inl rfl)
    refine ⟨after, shown', ?_, ?_⟩
    · -- The widest is what there was, or asked for by the first rule or a later one.
      rcases among with wide | ⟨other, member, asked⟩
      · rcases max_choice before rule.visibility with same | same
        · exact .inl (wide.trans same)
        · exact .inr ⟨rule, List.mem_cons_self, (wide.trans same).symm⟩
      · exact .inr ⟨other, List.mem_cons_of_mem _ member, asked⟩
    · rintro visibility (rfl | ⟨other, member, rfl⟩)
      · exact (le_max_left _ _).trans bound
      · rcases List.mem_cons.mp member with rfl | member
        · exact (le_max_right _ _).trans bound
        · exact above (.inr ⟨other, member, rfl⟩)

/-- The last rule that says anything about finality. -/
def decisive? (rules : List AccessRule) : Option AccessRule :=
  (rules.filter (·.finality != .keep)).getLast?

private theorem decisive?_append (rules : List AccessRule) (rule : AccessRule) :
    decisive? (rules ++ [rule]) = if rule.finality = .keep then decisive? rules else some rule := by
  rw [decisive?, List.filter_append]
  by_cases keeps : rule.finality = .keep
  · rw [List.filter_cons_of_neg (by simpa using keeps), List.filter_nil, List.append_nil, if_pos keeps]
    rfl
  · rw [List.filter_cons_of_pos (by simpa using keeps), List.filter_nil, List.getLast?_concat,
      if_neg keeps]

theorem isFinal_mergedAll (flags : AccessFlags) (rules : List AccessRule) :
    (flags.mergedAll rules).isFinal =
      match decisive? rules with
      | some rule => rule.finality == .set
      | none => flags.isFinal := by
  -- The last rule is merged last, so the induction is from the end of the list.
  induction rules using List.reverseRecOn with
  | nil => rfl
  | append_singleton rules rule ih =>
    rw [mergedAll, List.foldl_append, List.foldl_cons, List.foldl_nil, isFinal_merged,
      decisive?_append]
    cases finality : rule.finality with
    | set => simp [finality]
    | clear => simp [finality]
    | keep => exact ih

theorem others_mergedAll (flags : AccessFlags) (rules : List AccessRule) :
    (flags.mergedAll rules).others = flags.others := by
  induction rules generalizing flags with
  | nil => rfl
  | cons rule rules ih => exact (ih (flags.merged rule)).trans (others_merged flags rule)

/-- A change such as rules make, which leaves alone what rules are not about. -/
def Ruled (settle : AccessFlags → AccessFlags) : Prop :=
  ∀ flags, (settle flags).others = flags.others

theorem ruled_mergedAll (rules : List AccessRule) : Ruled (·.mergedAll rules) :=
  fun flags => others_mergedAll flags rules

/-! ## The rules in another order -/

private theorem mergedAll_again_iff (rules : List AccessRule) {now : Visibility}
    (shown : (flags.mergedAll rules).visibility = now.flags) :
    (flags.mergedAll rules).mergedAll rules = flags.mergedAll rules ↔
      ∀ rule ∈ rules, rule.visibility ≤ now := by
  obtain ⟨after, shown', widest⟩ := exists_widest rules shown
  constructor
  · intro same rule member
    rw [same, shown] at shown'
    obtain rfl := Visibility.flags_injective shown'
    exact widest.2 (.inr ⟨rule, member, rfl⟩)
  · intro bounded
    -- What is there already is then the widest of all, and no merge goes further.
    have reached : Widest rules now now := by
      refine ⟨.inl rfl, ?_⟩
      rintro visibility (rfl | ⟨rule, member, rfl⟩)
      · exact le_refl visibility
      · exact bounded rule member
    refine eq_of_parts ?_ ?_ (others_mergedAll _ _)
    · rw [shown', shown, reached.unique (fun _ => Iff.rfl) widest]
    · rw [isFinal_mergedAll (flags.mergedAll rules), isFinal_mergedAll flags]
      cases decisive? rules <;> rfl

/-- The first rule asks for nothing that is not there after the others. -/
def Covered : List AccessRule → Prop
  | [] => True
  | first :: rest => first.visibility ≤ .pkg ∨ ∃ rule ∈ rest, first.visibility ≤ rule.visibility

/-- A second time, the rules change nothing, unless the flags had several visibility bits at first.
Then it takes the first rule to clear these, and what that asks for has to come from another one. -/
theorem mergedAll_mergedAll_iff (flags : AccessFlags) (rules : List AccessRule) :
    (flags.mergedAll rules).mergedAll rules = flags.mergedAll rules ↔
      ((∀ visibility : Visibility, flags.visibility ≠ visibility.flags) → Covered rules) := by
  by_cases mixed : ∀ visibility : Visibility, flags.visibility ≠ visibility.flags
  · cases rules with
    | nil => exact iff_of_true rfl fun _ => trivial
    | cons first rest =>
      obtain ⟨now, shown, among, above⟩ :=
        exists_widest rest (visibility_merged_mixed flags first mixed)
      -- Whatever the first rule asks for, it leaves package visibility behind for the others.
      have package : Visibility.pkg ≤ now := above (.inl rfl)
      have others : ∀ rule ∈ rest, rule.visibility ≤ now := fun rule member =>
        above (.inr ⟨rule, member, rfl⟩)
      rw [mergedAll_again_iff (first :: rest) shown, List.forall_mem_cons]
      constructor
      · rintro ⟨bounded, -⟩ -
        rcases among with rfl | ⟨rule, member, rfl⟩
        · exact .inl bounded
        · exact .inr ⟨rule, member, bounded⟩
      · intro covered
        refine ⟨?_, others⟩
        rcases covered mixed with low | ⟨rule, member, low⟩
        · exact low.trans package
        · exact low.trans (others rule member)
  · push Not at mixed
    obtain ⟨before, shown⟩ := mixed
    obtain ⟨now, shown', -, above⟩ := exists_widest rules shown
    refine iff_of_true ?_ fun mixed => absurd shown (mixed before)
    exact (mergedAll_again_iff rules shown').mpr fun rule member => above (.inr ⟨rule, member, rfl⟩)

end AccessFlags

end JarRemap
