import JarRemap.Proofs.SymbolMap.Overloads

/-!
# Call sites that are known by a name alone

Without a descriptor, the entries of a class tell the new name only if they agree. A lookup goes up
to the nearest class whose entries do, past classes whose entries contradict each other, and it does
not look at what is above.
-/

namespace JarRemap

namespace SymbolMap

theorem callSite?_none (symbols : SymbolMap) (interface name : String) :
    symbols.callSite? interface name none =
      (interface :: symbols.hierarchy.ancestors interface).findSome? fun class_ =>
        symbols.table.methodByName? class_ name := by
  rw [callSite?, inherited, List.findSome?_cons]
  cases symbols.table.methodByName? interface name <;> rfl

/-- The nearest class decides whose entries for the name agree. -/
theorem callSite?_eq_some_iff (symbols : SymbolMap) (interface name new : String) :
    symbols.callSite? interface name none = some new ↔
      ∃ nearer class_ further,
        interface :: symbols.hierarchy.ancestors interface = nearer ++ class_ :: further ∧
        symbols.table.Unanimous class_ name new ∧
        ∀ before ∈ nearer, ∀ other, ¬symbols.table.Unanimous before name other := by
  have silent (class_ : String) : symbols.table.methodByName? class_ name = none ↔
      ∀ other, ¬symbols.table.Unanimous class_ name other := by
    simp only [← MappingTable.methodByName?_eq_some_iff, Option.eq_none_iff_forall_ne_some, ne_eq]
  rw [callSite?_none, List.findSome?_eq_some_iff]
  simp only [MappingTable.methodByName?_eq_some_iff, silent]

open ClassDeclaration (Inherits)

section

variable {table : MappingTable} {declarations : List ClassDeclaration} {interface class_ name new : String}

theorem inherits_iff_mem (declarations : List ClassDeclaration) (interface class_ : String) :
    Inherits declarations interface class_ ↔
      class_ ∈ interface :: (Hierarchy.declared declarations).ancestors interface :=
  ((Hierarchy.mem_lineage_iff _ _ _).trans (Hierarchy.reaches_declared_iff _ _ _)).symm

/-- An answer is given as soon as the entries of one class agree. -/
theorem exists_callSite? (inherits : Inherits declarations interface class_)
    (unanimous : table.Unanimous class_ name new) :
    ∃ other, callSite? ⟨table, .declared declarations⟩ interface name none = some other := by
  rw [← Option.isSome_iff_exists, ← Option.ne_none_iff_isSome, callSite?_none, ne_eq,
    List.findSome?_eq_none_iff]
  intro silent
  have none_ := silent class_ ((inherits_iff_mem declarations interface class_).mp inherits)
  rw [(table.methodByName?_eq_some_iff class_ name new).mpr unanimous] at none_
  cases none_

/-- And it is the one that the entries of some class agree on. -/
theorem unanimous_of_callSite?
    (answered : callSite? ⟨table, .declared declarations⟩ interface name none = some new) :
    ∃ class_, Inherits declarations interface class_ ∧ table.Unanimous class_ name new := by
  obtain ⟨nearer, class_, further, whole, unanimous, -⟩ := (callSite?_eq_some_iff _ _ _ _).mp answered
  exact ⟨class_, (inherits_iff_mem _ _ _).mpr (whole ▸ by simp), unanimous⟩

end

/-- Where the entries above an interface agree on one new name, its call sites get that name. Where
they do not, the call sites get a name all the same, unless there is no class above whose own entries
agree: that of the nearest such class. -/
theorem callSite?_by_name {table : MappingTable} {declarations : List ClassDeclaration}
    {interface name : String} :
    let symbols : SymbolMap := ⟨table, .declared declarations⟩
    let answer := symbols.callSite? interface name none
    (∀ new, (∃ class_, Inherits declarations interface class_ ∧ table.RenamesNamed class_ name new) →
      (∀ class_ other, Inherits declarations interface class_ →
        table.RenamesNamed class_ name other → other = new) → answer = some new) ∧
    (∀ new, answer = some new ↔ ∃ nearer class_ further,
      interface :: symbols.hierarchy.ancestors interface = nearer ++ class_ :: further ∧
      table.Unanimous class_ name new ∧
      ∀ before ∈ nearer, ∀ other, ¬table.Unanimous before name other) ∧
    ((∀ new, answer = some new → ∀ class_ other, Inherits declarations interface class_ →
        table.RenamesNamed class_ name other → other = new) ↔
      (∀ class_ new class' new', Inherits declarations interface class_ →
        Inherits declarations interface class' → table.RenamesNamed class_ name new →
        table.RenamesNamed class' name new' → new = new') ∨
      ∀ class_ new, Inherits declarations interface class_ → ¬table.Unanimous class_ name new) := by
  intro symbols answer
  refine ⟨fun new carries agreed => ?_, symbols.callSite?_eq_some_iff interface name, fun sound => ?_,
    fun cases_ new answered => ?_⟩
  · -- Where all entries agree, those of each single class do, so some class answers.
    obtain ⟨class_, inherits, renames⟩ := carries
    obtain ⟨other, answered⟩ :=
      exists_callSite? inherits ⟨renames, fun other => agreed class_ other inherits⟩
    obtain ⟨class', inherits', unanimous⟩ := unanimous_of_callSite? answered
    rwa [agreed class' other inherits' unanimous.renames] at answered
  · -- Either some class gives an answer, which all entries have to agree with, or no class does.
    by_cases some_ : ∃ class_ new, Inherits declarations interface class_ ∧
        table.Unanimous class_ name new
    · obtain ⟨_, _, inherits, unanimous⟩ := some_
      obtain ⟨new, answered⟩ := exists_callSite? inherits unanimous
      refine .inl fun class_ first class' second here there renames renames' => ?_
      rw [sound new answered class_ first here renames, sound new answered class' second there renames']
    · push Not at some_
      exact .inr some_
  · obtain ⟨class', inherits', unanimous⟩ := unanimous_of_callSite? answered
    obtain agreed | nobody := cases_
    · exact fun class_ other inherits renames =>
        agreed class_ other class' new inherits inherits' renames unanimous.renames
    · exact absurd unanimous (nobody class' new inherits')

/-- A listener with a supertype. -/
def listener : List ClassDeclaration := [⟨"i", none, ["p"]⟩]

/-- The overloads of the listener contradict each other, while its supertype has a single method. -/
def overloaded : MappingTable :=
  ⟨[⟨.method, "i", "I", some "n", some "open", some "()V", some "()V"⟩,
    ⟨.method, "i", "I", some "n", some "close", some "(I)V", some "(I)V"⟩,
    ⟨.method, "p", "P", some "n", some "run", some "()V", some "()V"⟩]⟩

/-- Listener and supertype have one method each. -/
def shadowing : MappingTable :=
  ⟨[⟨.method, "i", "I", some "n", some "open", some "(I)V", some "(I)V"⟩,
    ⟨.method, "p", "P", some "n", some "run", some "()V", some "()V"⟩]⟩

/-- The name of a call site may be taken from one of several entries that contradict each other. -/
theorem callSite?_ambiguous :
    (callSite? ⟨overloaded, .declared listener⟩ "i" "n" none = some "run" ∧
      Inherits listener "i" "i" ∧ overloaded.RenamesNamed "i" "n" "open" ∧
      overloaded.RenamesNamed "i" "n" "close") ∧
    callSite? ⟨shadowing, .declared listener⟩ "i" "n" none = some "open" ∧
      Inherits listener "i" "p" ∧ shadowing.RenamesNamed "p" "n" "run" := by
  have inherits : Inherits listener "i" "p" := by
    rw [← Hierarchy.reaches_declared_iff, ← Hierarchy.mem_lineage_iff]
    decide
  refine ⟨⟨by decide, .refl, ⟨"()V", ?_⟩, ⟨"(I)V", ?_⟩⟩, by decide, inherits, ⟨"()V", ?_⟩⟩
  all_goals simp [MappingTable.Renames, overloaded, shadowing, MemberKind.mapping]

end SymbolMap

end JarRemap
