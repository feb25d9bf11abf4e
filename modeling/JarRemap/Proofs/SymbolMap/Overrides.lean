import JarRemap.Proofs.Hierarchy.Ancestors
import JarRemap.Proofs.Mapping

/-!
# Overriding members

A member that is declared again further down takes the name that its declarations further up have.
As long as the table does not contradict itself above a class, the class and everything above it
that knows of a new name agree on that name.
-/

namespace JarRemap

/-- The table has an entry for the member of this very class, which gives it the new name. A field is
meant by its name alone. -/
def MappingTable.Renames (table : MappingTable) (kind : MemberKind)
    (owner name descriptor new : String) : Prop :=
  ∃ entry ∈ table.entries, entry.kind = kind.mapping ∧ entry.oldOwner = owner ∧
    entry.oldMember = some name ∧ (kind = .method → entry.oldDescriptor = some descriptor) ∧
    entry.newMember = some new

theorem MappingTable.renames_iff (table : MappingTable) (kind : MemberKind)
    (owner name descriptor new : String) :
    table.Renames kind owner name descriptor new ↔
      ∃ entry ∈ table.entries, entry.member? kind owner name descriptor = some new := by
  simp only [Renames, MappingEntry.member?_eq_some_iff]

namespace SymbolMap

variable {symbols : SymbolMap} {kind : MemberKind} {name descriptor new : String}

/-- If all entries that a lookup comes across give the same name, it ends with that name. -/
private theorem lookup_agreed {classes : List String}
    (agreed : ∀ class_ ∈ classes, ∀ other,
      symbols.table.Renames kind class_ name descriptor other → other = new)
    (carries : ∃ class_ ∈ classes, ∃ other, symbols.table.Renames kind class_ name descriptor other) :
    (classes.findSome? fun class_ =>
      symbols.table.ask (MappingEntry.member? kind class_ name descriptor)) = some new := by
  cases found : classes.findSome? fun class_ =>
      symbols.table.ask (MappingEntry.member? kind class_ name descriptor) with
  | none =>
    -- Then no class has an entry.
    obtain ⟨class_, among, other, renames⟩ := carries
    obtain ⟨entry, member, said⟩ := (symbols.table.renames_iff ..).mp renames
    have silent := MappingTable.ask_eq_none_iff.mp (List.findSome?_eq_none_iff.mp found class_ among)
    rw [silent entry member] at said
    cases said
  | some other =>
    obtain ⟨class_, among, asked⟩ := List.exists_of_findSome?_eq_some found
    have renames := (symbols.table.renames_iff ..).mpr (MappingTable.exists_of_ask asked)
    rw [agreed class_ among other renames]

private theorem member?_agreed {owner : String}
    (agreed : ∀ class_, symbols.hierarchy.Reaches owner class_ → ∀ other,
      symbols.table.Renames kind class_ name descriptor other → other = new)
    (carries : ∃ class_ other, symbols.hierarchy.Reaches owner class_ ∧
      symbols.table.Renames kind class_ name descriptor other) :
    symbols.member? kind owner name descriptor =
      if kind = .method ∧ name ∈ reservedMethods then none else some new := by
  rw [member?_eq]
  split
  · rfl
  · simp only [← Hierarchy.mem_lineage_iff] at agreed carries
    obtain ⟨class_, other, among, renames⟩ := carries
    exact lookup_agreed agreed ⟨class_, among, other, renames⟩

open ClassDeclaration (Inherits)

/-- Where all entries for a member agree on one new name, from a class upwards, that name is given to
the member in the class and in everything above it from where an entry can be reached. Only the two
kinds of initialisers keep their names. -/
theorem member?_overriding {table : MappingTable} {declarations : List ClassDeclaration}
    {kind : MemberKind} {base above name descriptor new : String}
    (agreed : ∀ class_, Inherits declarations base class_ → ∀ other,
      table.Renames kind class_ name descriptor other → other = new)
    (inherits : Inherits declarations base above)
    (carries : ∃ class_ other, Inherits declarations above class_ ∧
      table.Renames kind class_ name descriptor other) :
    let symbols : SymbolMap := ⟨table, .declared declarations⟩
    let answer := if kind = .method ∧ (name = "<init>" ∨ name = "<clinit>") then none else some new
    symbols.member? kind base name descriptor = answer ∧
      symbols.member? kind above name descriptor = answer := by
  intro symbols answer
  have reaches : ∀ name other, symbols.hierarchy.Reaches name other ↔ Inherits declarations name other :=
    Hierarchy.reaches_declared_iff declarations
  have reserved : (if kind = .method ∧ name ∈ reservedMethods then none else some new) = answer := by
    simp [answer, reservedMethods]
  obtain ⟨class_, other, further, renames⟩ := carries
  rw [← reserved]
  constructor
  · refine member?_agreed (fun class_ reached => ?_) ⟨class_, other, ?_, renames⟩
    · exact agreed class_ ((reaches _ _).mp reached)
    · exact (reaches _ _).mpr (inherits.trans further)
  · -- Whatever is above `above` is above `base`.
    refine member?_agreed (fun class_ reached => ?_) ⟨class_, other, ?_, renames⟩
    · exact agreed class_ (inherits.trans ((reaches _ _).mp reached))
    · exact (reaches _ _).mpr further

/-- `C` and its supertypes run in a circle. `C` is declared twice, and `I` not at all. -/
def circle : List ClassDeclaration :=
  [⟨"D", some "B", ["I"]⟩, ⟨"B", some "C", ["I"]⟩, ⟨"C", some "B", []⟩, ⟨"C", some "X", []⟩,
    ⟨"X", some "D", []⟩]

/-- The entry of `X` is no concern of `D` and what is above it. -/
def circleTable : MappingTable :=
  ⟨[⟨.method, "I", "pkg/I", some "m", some "run", some "()V", some "()V"⟩,
    ⟨.method, "X", "pkg/X", some "m", some "walk", some "()V", some "()V"⟩,
    ⟨.field, "I", "pkg/I", some "m", some "count", none, none⟩,
    ⟨.method, "D", "pkg/D", some "m", some "run", some "()V", some "()V"⟩]⟩

theorem member?_overriding_circle :
    (∀ class_, Inherits circle "D" class_ → ∀ other,
      circleTable.Renames .method class_ "m" "()V" other → other = "run") ∧
    Inherits circle "D" "C" ∧
    (∃ class_ other, Inherits circle "C" class_ ∧
      circleTable.Renames .method class_ "m" "()V" other) ∧
    member? ⟨circleTable, .declared circle⟩ .method "D" "m" "()V" = some "run" ∧
    member? ⟨circleTable, .declared circle⟩ .method "C" "m" "()V" = some "run" := by
  have above : ∀ name other, Inherits circle name other ↔
      other ∈ name :: (Hierarchy.declared circle).ancestors name := by
    intro name other
    rw [Hierarchy.mem_lineage_iff, Hierarchy.reaches_declared_iff]
  have agreed : ∀ class_, Inherits circle "D" class_ → ∀ other,
      circleTable.Renames .method class_ "m" "()V" other → other = "run" := by
    intro class_ inherits other renames
    rw [above, show (Hierarchy.declared circle).ancestors "D" = ["B", "I", "C"] by decide] at inherits
    have elsewhere : class_ ≠ "X" := by
      rintro rfl
      simp at inherits
    simp [MappingTable.Renames, circleTable, MemberKind.mapping] at renames
    rcases renames with ⟨-, rfl⟩ | ⟨rfl, -⟩ | ⟨-, rfl⟩
    · rfl
    · exact absurd rfl elsewhere
    · rfl
  have inherits : Inherits circle "D" "C" := (above _ _).mpr (by decide)
  have carries : ∃ class_ other, Inherits circle "C" class_ ∧
      circleTable.Renames .method class_ "m" "()V" other :=
    ⟨"I", "run", (above _ _).mpr (by decide), by simp [MappingTable.Renames, circleTable,
      MemberKind.mapping]⟩
  have named := member?_overriding agreed inherits carries
  exact ⟨agreed, inherits, carries, named.1, named.2⟩

end SymbolMap

end JarRemap
