import JarRemap.Proofs.Mapping.ClassNames

/-!
# Classes under their old names again

The inverse of a table has an entry for each new name that stands in the table. A class that has its
new name from a package or from the class around it can still end up under a name that the table gives
to another class, and then the inverse leads to that other class.
-/

namespace JarRemap

/-! ## Classes under other names -/

/-- A class lies in another one just as well if the two have another name in front. -/
theorem Encloses.moved (front between rest : List Char) {other : List Char} (begun : other ≠ [])
    (encloses : Encloses (front ++ between ++ rest) (front ++ between) rest) :
    Encloses (other ++ between ++ rest) (other ++ between) rest := by
  obtain nothing | ⟨-, first⟩ := (encloses_iff.mp encloses).2
  · exact encloses_iff.mpr ⟨rfl, .inl nothing⟩
  · exact encloses_iff.mpr ⟨rfl, .inr ⟨by simp [begun], first⟩⟩

/-- The classes around one whose package is named without a dollar sign lie in that package. -/
theorem encloses_packaged {package : String} {simple outer added : List Char}
    (plain : '$' ∉ package.toList) (encloses : Encloses (packaged package simple) outer added) :
    ∃ front, outer = packaged package front ∧ simple = front ++ added := by
  obtain ⟨whole, behind⟩ := encloses_iff.mp encloses
  obtain rfl | ⟨-, first⟩ := behind
  · exact ⟨simple, by simpa using whole.symm, by simp⟩
  · obtain ⟨rest, rfl⟩ := List.head?_eq_some_iff.mp first
    rw [packaged] at whole
    split at whole
    next unnamed => exact ⟨outer, by rw [packaged, if_pos unnamed], whole⟩
    next named =>
      obtain ⟨middle, rfl, split⟩ | ⟨middle, begins, split⟩ := List.append_eq_append_iff.mp whole
      · cases middle with
        | nil => cases split
        | cons c front =>
          obtain ⟨rfl, rfl⟩ := List.cons.inj split
          exact ⟨front, by rw [packaged, if_neg named], rfl⟩
      · cases middle with
        | nil => cases split
        | cons c front =>
          -- The dollar sign would stand in the name of the package.
          obtain ⟨rfl, -⟩ := List.cons.inj split
          simp [begins] at plain

/-- A class name as class files have them: dollar signs stand in no name of a package, and no package
is spelled like the one without a name. -/
structure Ordinary (name : List Char) : Prop where
  flat : Flat name
  spelled : ∀ simple, '/' ∉ simple → name ≠ MappingTable.defaultPackage.toList ++ '/' :: simple

namespace Ordinary

theorem nil : Ordinary [] where
  flat := by decide
  spelled := by simp

theorem packaged_eq {name simple : List Char} {package : String} (ordinary : Ordinary name)
    (lies : InPackage name package simple) : packaged package simple = name := by
  cases lies with
  | unnamed => rfl
  | named solid =>
    rw [packaged]
    split
    next unnamed => exact absurd (unnamed ▸ rfl) (ordinary.spelled simple solid)
    next => rfl

theorem outer {name outer added : List Char} (ordinary : Ordinary name)
    (encloses : Encloses name outer added) : Ordinary outer := by
  cases encloses with
  | itself => exact ordinary
  | @nested _ rest begun whole =>
    subst whole
    obtain ⟨flat, solid⟩ := ordinary.flat.nested
    refine ⟨flat, fun simple plain same => ?_⟩
    exact ordinary.spelled (simple ++ '$' :: rest) (by simp [plain, solid]) (by simp [same])

end Ordinary

theorem InPackage.solid {name simple : List Char} {package : String}
    (lies : InPackage name package simple) : '/' ∉ simple := by
  cases lies with
  | unnamed solid => exact solid
  | named solid => exact solid

theorem inPackage_packaged {simple : List Char} (package : String) (solid : '/' ∉ simple) :
    InPackage (packaged package simple) package simple := by
  rw [packaged]
  split
  next unnamed => exact unnamed ▸ .unnamed solid
  next => exact .named solid

theorem flat_packaged {package : String} {simple : List Char} (plain : '$' ∉ package.toList)
    (solid : '/' ∉ simple) : Flat (packaged package simple) := by
  intro before after whole within
  rw [packaged] at whole
  split at whole
  next => simp [whole] at solid
  next =>
    obtain ⟨middle, rfl, split⟩ | ⟨middle, begins, -⟩ := List.append_eq_append_iff.mp whole
    · cases middle with
      | nil => simp [plain] at within
      | cons c middle =>
        obtain ⟨rfl, rfl⟩ := List.cons.inj split
        simp at solid
    · simp [begins, within] at plain

/-- Where packages are different for one class, they are for all. -/
theorem packaged_ne {package other : String} {simple front added : List Char}
    (whole : simple = front ++ added) (different : packaged package simple ≠ packaged other simple) :
    packaged package front ≠ packaged other front := by
  rintro same
  rw [whole, packaged_append, packaged_append, same] at different
  exact different rfl

namespace MappingTable

/-! ## Entries that decide -/

/-- Entries as in mapping files: packages and classes have no members, classes have names, and no
package gets a name with a dollar sign. -/
structure Conventional (table : MappingTable) : Prop where
  bare : ∀ entry ∈ table.entries, entry.kind = .package ∨ entry.kind = .class_ →
    entry.newMember = none ∧ entry.newDescriptor = none
  named : ∀ entry ∈ table.entries, entry.kind = .class_ → entry.oldOwner ≠ "" ∧ entry.newOwner ≠ ""
  plain : ∀ entry ∈ table.entries, entry.kind = .package → '$' ∉ entry.newOwner.toList

variable {table inverse : MappingTable} {kind : MappingKind} {name : List Char}

theorem Assigns.entry {old new : String} (assigned : table.Assigns kind old new) :
    ∃ entry ∈ table.entries, entry.kind = kind ∧ entry.oldOwner = old ∧ entry.newOwner = new := by
  obtain ⟨before, entry, after, whole, kinds, owners, gives, -⟩ := assigned
  exact ⟨entry, by simp [whole], kinds, owners, gives⟩

theorem exists_assigns {entry : MappingEntry} (member : entry ∈ table.entries) :
    ∃ new, table.Assigns entry.kind entry.oldOwner new := by
  cases asked : table.ask (MappingEntry.owner? entry.kind entry.oldOwner) with
  | some new => exact ⟨new, ask_owner?_eq_some_iff.mp asked⟩
  | none =>
    have silent := ask_eq_none_iff.mp asked entry member
    simp [MappingEntry.owner?] at silent

/-- The innermost class with an entry decides, wherever the dollar signs stand. -/
theorem renamed?_listed {outer added : List Char} {new : String} (encloses : Encloses name outer added)
    (assigned : table.Assigns .class_ (String.ofList outer) new)
    (innermost : ∀ other rest new, Encloses name other rest →
      table.Assigns .class_ (String.ofList other) new → other.length ≤ outer.length) :
    table.renamed? name = some (new.toList ++ added) := by
  -- No new name is put together from a package here, so the name need not be flat.
  induction shorter : name.length using Nat.strongRecOn generalizing name added with
  | _ size ih =>
    subst shorter
    rw [renamed?_eq]
    cases own : table.ask (MappingEntry.owner? .class_ (String.ofList name)) with
    | some other =>
      have level := innermost name [] other .itself (ask_owner?_eq_some_iff.mp own)
      obtain ⟨inner, around, split⟩ := Encloses.itself.between encloses level
      obtain ⟨rfl, rfl⟩ := List.append_eq_nil_iff.mp split.symm
      obtain rfl : outer = name := by simpa using encloses.append.symm
      rw [Assigns.unique assigned (ask_owner?_eq_some_iff.mp own)]
      simp
    | none =>
      have unowned : outer ≠ name := by
        rintro rfl
        rw [ask_owner?_eq_some_iff.mpr assigned] at own
        cases own
      cases nested : nesting? name with
      | none => exact absurd (encloses_plain nested encloses).1 unowned
      | some parts =>
        obtain ⟨around, inner⟩ := parts
        obtain ⟨rfl, solid, begun⟩ := nesting?_eq_some_iff.mp nested
        obtain ⟨rfl, -⟩ | ⟨rest, within, rfl⟩ := (encloses_nested_iff begun solid).mp encloses
        · exact absurd rfl unowned
        · have answer := ih around.length (by simp) within (fun other rest new outside =>
            innermost other _ new
              ((encloses_nested_iff begun solid).mpr (.inr ⟨rest, outside, rfl⟩))) rfl
          simp [answer]

theorem class?_eq_some_iff {name new : String} :
    table.class? name = some new ↔ table.renamed? name.toList = some new.toList := by
  rw [class?]
  cases table.renamed? name.toList <;> simp [← String.toList_inj]

/-- No other class gets a new name that an entry gives to a class. -/
def Separate (table : MappingTable) : Prop :=
  ∀ entry ∈ table.entries, entry.kind = .class_ → ∀ name, Ordinary name.toList →
    table.class? name = some entry.newOwner → name = entry.oldOwner

theorem Conventional.unlisted_nil (conventional : table.Conventional) : table.Unlisted [] := by
  intro outer added new encloses assigned
  obtain ⟨rfl, -⟩ := List.append_eq_nil_iff.mp encloses.append.symm
  obtain ⟨entry, member, kinds, owners, -⟩ := assigned.entry
  exact (conventional.named entry member kinds).1 owners

/-- It is enough that no package moves to where a class goes, and that a class only goes into another one
along with that. -/
theorem separate_of_entries
    (elsewhere : ∀ entry ∈ table.entries, entry.kind = .class_ →
      ∀ other ∈ table.entries, other.kind = .package →
        ∀ simple, packaged other.newOwner simple ≠ entry.newOwner.toList)
    (along : ∀ entry ∈ table.entries, entry.kind = .class_ →
      ∀ other ∈ table.entries, other.kind = .class_ →
        ∀ added, other.newOwner.toList ++ added = entry.newOwner.toList →
          other.oldOwner.toList ++ added = entry.oldOwner.toList) : table.Separate := by
  intro entry member kinds name ordinary named
  have becomes : table.Becomes name.toList (table.renamed? name.toList) :=
    becomes_renamed? ordinary.flat
  rw [class?_eq_some_iff.mp named] at becomes
  generalize answered : some entry.newOwner.toList = answer at becomes
  -- The other name reached the new name of the entry in one of these ways.
  cases becomes with
  | listed encloses assigned =>
    obtain ⟨other, member', kinds', owners, rfl⟩ := assigned.entry
    have same := along entry member kinds other member' kinds' _ (Option.some.inj answered).symm
    rwa [owners, String.toList_ofList, ← encloses.append, String.toList_inj] at same
  | moved _ _ assigned =>
    obtain ⟨other, member', kinds', -, rfl⟩ := assigned.entry
    exact absurd (Option.some.inj answered).symm (elsewhere entry member kinds other member' kinds' _)
  | same => cases answered
  | unknown => cases answered

/-! ## The way back -/

section

variable (inverted : table.inverse = .ok inverse)
include inverted

theorem entry_of_inverse {old new : String} (assigned : inverse.Assigns kind new old) :
    ∃ entry ∈ table.entries, entry.kind = kind ∧ entry.oldOwner = old ∧ entry.newOwner = new := by
  obtain ⟨turned, member, kinds, gives, owners⟩ := assigned.entry
  rw [inverse_ok inverted] at member
  obtain ⟨entry, among, rfl⟩ := List.mem_map.mp member
  exact ⟨entry, among, kinds, owners, gives⟩

/-- A class that gets a new name which the inverse has an entry for has an entry of its own. -/
theorem assigned_of_reached (separate : table.Separate) (ordinary : Ordinary name) {new : List Char}
    {old : String} (reached : table.renamed? name = some new)
    (back : inverse.Assigns .class_ (String.ofList new) old) :
    ∃ other, table.Assigns .class_ (String.ofList name) other := by
  obtain ⟨entry, member, kinds, rfl, gives⟩ := entry_of_inverse inverted back
  have same := separate entry member kinds (String.ofList name) (by simpa using ordinary)
    (class?_eq_some_iff.mpr (by simpa [gives] using reached))
  obtain ⟨other, assigned⟩ := exists_assigns member
  rw [kinds, ← same] at assigned
  exact ⟨other, assigned⟩

variable (conventional : table.Conventional)
include conventional

/-- The inverse leads back from every new name of an entry. -/
theorem inverse_assigns {entry : MappingEntry} (member : entry ∈ table.entries)
    (kinds : entry.kind = .package ∨ entry.kind = .class_) :
    inverse.Assigns entry.kind entry.newOwner entry.oldOwner := by
  obtain ⟨entries, distinct⟩ := inverse_ok_iff.mp inverted
  have turned : entry.inverted ∈ inverse.entries := entries ▸ List.mem_map_of_mem member
  obtain ⟨old, back⟩ := exists_assigns turned
  -- The entry that decides has the same key, so it is this one.
  obtain ⟨other, member', kinds', rfl, owners'⟩ := entry_of_inverse inverted back
  have turned' : other.inverted ∈ inverse.entries := entries ▸ List.mem_map_of_mem member'
  have kinds' : other.kind = entry.kind := kinds'
  have owners' : other.newOwner = entry.newOwner := owners'
  obtain ⟨members, descriptors⟩ := conventional.bare entry member kinds
  obtain ⟨members', descriptors'⟩ := conventional.bare other member' (kinds' ▸ kinds)
  have same : other.inverted.key = entry.inverted.key := by
    simp only [MappingEntry.key, MappingEntry.inverted, kinds', owners', members, members', descriptors,
      descriptors']
  have alike := congrArg MappingEntry.newOwner (List.inj_on_of_nodup_map distinct turned' turned same)
  have alike : other.oldOwner = entry.oldOwner := alike
  exact alike ▸ back

variable (separate : table.Separate) (ordinary : Ordinary name)
include separate ordinary

theorem listed_back {outer added : List Char} {new : String} (encloses : Encloses name outer added)
    (assigned : table.Assigns .class_ (String.ofList outer) new)
    (innermost : ∀ other rest new, Encloses name other rest →
      table.Assigns .class_ (String.ofList other) new → other.length ≤ outer.length) :
    inverse.renamed? (new.toList ++ added) = some name := by
  obtain ⟨entry, member, kinds, owners, rfl⟩ := assigned.entry
  obtain ⟨named, newNamed⟩ := conventional.named entry member kinds
  have begun : outer ≠ [] := fun none_ => named (by rw [owners, none_])
  have newBegun : entry.newOwner.toList ≠ [] := by simpa using newNamed
  have around : Encloses (entry.newOwner.toList ++ added) entry.newOwner.toList added := by
    have moved := Encloses.moved outer [] added newBegun
    simpa [← encloses.append, encloses] using moved
  have back := inverse_assigns inverted conventional member (.inr kinds)
  rw [kinds, owners] at back
  have answer := renamed?_listed around (by simpa using back) fun other rest old near back' => by
    by_contra longer
    -- This entry would take the class between the two with it.
    obtain ⟨inner, within, rfl⟩ := around.between near (Nat.le_of_not_le longer)
    obtain rfl := within.append
    have lies : Encloses name (outer ++ inner) rest := by
      have moved := Encloses.moved entry.newOwner.toList inner rest begun
      simpa [encloses.append, near] using moved
    obtain ⟨between, inside, split⟩ := encloses.between lies (by simp)
    obtain rfl := List.append_cancel_right split
    have reached := renamed?_listed inside assigned fun other rest new far =>
      innermost other _ new (far.trans lies)
    obtain ⟨_, listed⟩ := assigned_of_reached inverted separate (ordinary.outer lies) reached back'
    have level := innermost _ _ _ lies listed
    rw [List.length_append] at level longer
    omega
  rw [answer, String.toList_ofList, encloses.append]

theorem moved_back {package new : String} {simple : List Char} (unlisted : table.Unlisted name)
    (lies : InPackage name package simple) (assigned : table.Assigns .package package new)
    (different : packaged new simple ≠ name) : inverse.renamed? (packaged new simple) = some name := by
  obtain ⟨entry, member, kinds, rfl, rfl⟩ := assigned.entry
  have plain := conventional.plain entry member kinds
  have solid := lies.solid
  have placed := ordinary.packaged_eq lies
  rw [← placed] at different
  have back := inverse_assigns inverted conventional member (.inl kinds)
  rw [kinds] at back
  have free : inverse.Unlisted (packaged entry.newOwner simple) := by
    intro outer added old encloses listed
    obtain ⟨front, rfl, rfl⟩ := encloses_packaged plain encloses
    -- The class that this entry would take along is moved onto its new name.
    have sound : table.Unlisted (packaged entry.oldOwner front) ∧
        Ordinary (packaged entry.oldOwner front) := by
      by_cases begun : packaged entry.oldOwner front = []
      · rw [begun]
        exact ⟨conventional.unlisted_nil, .nil⟩
      · have behind := (encloses_iff.mp encloses).2.imp_right (And.imp_left fun _ => begun)
        have within : Encloses name (packaged entry.oldOwner front) added :=
          encloses_iff.mpr ⟨by rw [← placed, packaged_append], behind⟩
        exact ⟨fun other rest new far => unlisted other _ new (far.trans within), ordinary.outer within⟩
    obtain ⟨unlisted', ordinary'⟩ := sound
    have lies' := inPackage_packaged entry.oldOwner fun within =>
      solid (List.mem_append_left added within)
    have reached := (Becomes.moved unlisted' lies' assigned (packaged_ne rfl different)).renamed?_eq
      ordinary'.flat
    obtain ⟨new, listed'⟩ := assigned_of_reached inverted separate ordinary' reached listed
    exact unlisted' _ [] new .itself listed'
  have answer := (Becomes.moved free (inPackage_packaged _ solid) back different.symm).renamed?_eq
    (flat_packaged plain solid)
  rw [answer, placed]

theorem renamed?_back {new : List Char} (named : table.renamed? name = some new) :
    inverse.renamed? new = some name := by
  have becomes : table.Becomes name (table.renamed? name) := becomes_renamed? ordinary.flat
  rw [named] at becomes
  generalize answered : some new = answer at becomes
  cases becomes with
  | listed encloses assigned innermost =>
    rw [Option.some.inj answered]
    exact listed_back inverted conventional separate ordinary encloses assigned innermost
  | moved unlisted lies assigned different =>
    rw [Option.some.inj answered]
    exact moved_back inverted conventional separate ordinary unlisted lies assigned different
  | same => cases answered
  | unknown => cases answered

end

/-- The inverse leads back from the new names of all classes if no class gets a new name that an entry
gives to another one, and else it does not. -/
theorem class?_undone_iff {table inverse : MappingTable} (inverted : table.inverse = .ok inverse)
    (conventional : table.Conventional) :
    (∀ name new, Ordinary name.toList → table.class? name = some new → inverse.class? new = some name) ↔
      table.Separate := by
  constructor
  · intro undone entry member kinds name ordinary named
    have back := undone name entry.newOwner ordinary named
    have own := inverse_assigns inverted conventional member (.inr kinds)
    rw [kinds] at own
    rw [← String.ofList_toList (s := entry.newOwner)] at own
    have answer := renamed?_listed .itself own fun _ _ _ encloses _ => encloses.length_le
    rw [class?_eq_some_iff, answer] at back
    simpa [← String.toList_inj] using back.symm
  · intro separate name new ordinary named
    exact class?_eq_some_iff.mpr
      (renamed?_back inverted conventional separate ordinary (class?_eq_some_iff.mp named))

/-- A package that moves, and a class that goes elsewhere. -/
def apart : MappingTable := ⟨[.ofOwners .package "a" "p", .ofOwners .class_ "c/X" "q/X"]⟩

theorem conventional_apart : apart.Conventional where
  bare := by decide
  named := by decide
  plain := by decide

theorem separate_apart : apart.Separate := by
  refine separate_of_entries ?_ ?_
  · simp [apart, MappingEntry.ofOwners, packaged, defaultPackage]
  · simp [apart, MappingEntry.ofOwners]

theorem class?_undone_iff_apart :
    ∃ inverse, apart.inverse = .ok inverse ∧ apart.Conventional ∧ apart.Separate ∧
      ∀ name new, Ordinary name.toList → apart.class? name = some new → inverse.class? new = some name :=
  ⟨_, rfl, conventional_apart, separate_apart,
    (class?_undone_iff rfl conventional_apart).mpr separate_apart⟩

/-- A package that moves onto the new name of a class. -/
def reachedTwice : MappingTable := ⟨[.ofOwners .package "a" "p", .ofOwners .class_ "c/X" "p/X"]⟩

theorem class?_not_undone :
    ∃ inverse, reachedTwice.inverse = .ok inverse ∧ reachedTwice.class? "a/X" = some "p/X" ∧
      inverse.class? "p/X" = some "c/X" :=
  ⟨_, rfl, by decide, by decide⟩

end MappingTable

end JarRemap
