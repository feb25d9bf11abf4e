import JarRemap.Proofs.Mapping
import JarRemap.Proofs.Text.Pieces

/-!
# New names of classes

A class is looked up by itself, then its new name is built from that of the class around it, and then
its package is asked. Seen from outside, the innermost class around it with an entry of its own decides.
Only where there is none does the package, and all classes around it lie in the same package.
-/

namespace JarRemap

namespace MappingTable

/-! ## The lookup from a class to the one around it -/

/-- What stands before and after the last dollar sign, if anything stands before it. -/
def nesting? (name : List Char) : Option (List Char × List Char) :=
  (Text.cutLast? '$' name).filter (!·.1.isEmpty)

theorem nesting?_eq_some_iff {name outer inner : List Char} :
    nesting? name = some (outer, inner) ↔ name = outer ++ '$' :: inner ∧ '$' ∉ inner ∧ outer ≠ [] := by
  simp [nesting?, Text.cutLast?_eq_some_iff, and_assoc]

private theorem around_solid {front : List Char} (solid : '$' ∉ front) (added back : List Char) :
    around added (front ++ back) = around (front.reverse ++ added) back := by
  induction front generalizing added with
  | nil => rfl
  | cons c front ih =>
    obtain ⟨other, solid⟩ := not_or.mp (List.mem_cons.not.mp solid)
    rw [List.cons_append, around, if_neg (by simp [Ne.symm other]), ih solid]
    simp

private theorem around_append (added more chars : List Char) :
    around (added ++ more) chars =
      (around added chars).map fun (outer, added) => (outer, added ++ more) := by
  induction chars generalizing added with
  | nil => rfl
  | cons c chars ih =>
    rw [around, around, ← List.cons_append, ih]
    split <;> rfl

private theorem enclosing_nested {outer inner : List Char} (begun : outer ≠ []) (solid : '$' ∉ inner) :
    enclosing (outer ++ '$' :: inner) = ((outer ++ '$' :: inner).reverse, []) ::
      (enclosing outer).map fun (other, added) => (other, added ++ '$' :: inner) := by
  have turned : (outer ++ '$' :: inner).reverse = inner.reverse ++ '$' :: outer.reverse := by simp
  have further := around_append [] ('$' :: inner) outer.reverse
  rw [List.nil_append] at further
  rw [enclosing, enclosing, turned, around_solid (by simpa using solid), around, List.map_cons,
    if_pos (by simpa using begun), List.reverse_reverse, List.append_nil, further]
  rfl

private theorem enclosing_plain {name : List Char} (plain : nesting? name = none) :
    enclosing name = [(name.reverse, [])] := by
  rw [enclosing]
  cases cutting : Text.cutLast? '$' name with
  | none =>
    have solid := Text.cutLast?_eq_none_iff.mp cutting
    have end_ := @around_solid name.reverse (by simpa using solid) [] []
    rw [List.append_nil] at end_
    rw [end_, around]
  | some parts =>
    obtain ⟨outer, inner⟩ := parts
    obtain ⟨rfl, solid⟩ := Text.cutLast?_eq_some_iff.mp cutting
    -- The only dollar sign that is looked at stands in front.
    obtain rfl : outer = [] := by
      by_contra begun
      rw [nesting?_eq_some_iff.mpr ⟨rfl, solid, begun⟩] at plain
      cases plain
    have end_ := @around_solid inner.reverse (by simpa using solid) [] ['$']
    simp only [List.nil_append, List.reverse_cons]
    rw [end_]
    rfl

private theorem renamed?_or (table : MappingTable) (name : List Char) :
    table.renamed? name = ((enclosing name).findSome? table.enclosedName?).or
      ((enclosing name).reverse.findSome? table.movedName?) := by
  rw [renamed?]
  cases (enclosing name).findSome? table.enclosedName? <;> rfl

section

variable (table : MappingTable)

private theorem enclosedName?_itself (name : List Char) :
    table.enclosedName? (name.reverse, []) =
      (table.ask (MappingEntry.owner? .class_ (String.ofList name))).map String.toList := by
  simp [enclosedName?]

private theorem movedName?_itself (name : List Char) :
    table.movedName? (name.reverse, []) = table.packagedName? name := by
  simp [movedName?]

/-- What is found for a class is found for one that is nested in it, with the same text behind it. -/
private def Along (search : Enclosing → Option (List Char)) : Prop :=
  ∀ around (inner : List Char),
    search (around.1, around.2 ++ '$' :: inner) = (search around).map (· ++ '$' :: inner)

private theorem along_enclosedName? : Along table.enclosedName? := by
  rintro ⟨other, added⟩ inner
  simp [enclosedName?, Function.comp_def]

private theorem along_movedName? : Along table.movedName? := by
  rintro ⟨other, added⟩ inner
  simp [movedName?, Function.comp_def]

private theorem Along.findSome? {search : Enclosing → Option (List Char)} (along : Along search)
    (found : List Enclosing) (inner : List Char) :
    (found.map fun (other, added) => (other, added ++ '$' :: inner)).findSome? search =
      (found.findSome? search).map (· ++ '$' :: inner) := by
  rw [List.findSome?_map, List.map_findSome?]
  exact congrArg (List.findSome? · found) (funext fun around => along around inner)

/-- A class is looked up by itself, else it goes along with the class that it is nested in, and else
with its package. -/
theorem renamed?_eq (name : List Char) :
    table.renamed? name =
      ((table.ask (MappingEntry.owner? .class_ (String.ofList name))).map String.toList).or
        (((nesting? name).bind fun (outer, inner) =>
          (table.renamed? outer).map (· ++ '$' :: inner)).or (table.packagedName? name)) := by
  cases nested : nesting? name with
  | none =>
    rw [renamed?_or, enclosing_plain nested, List.reverse_singleton, List.findSome?_singleton,
      List.findSome?_singleton, enclosedName?_itself, movedName?_itself]
    rfl
  | some parts =>
    obtain ⟨outer, inner⟩ := parts
    obtain ⟨rfl, solid, begun⟩ := nesting?_eq_some_iff.mp nested
    -- The class itself is asked first for a name of its own, and last for that of its package.
    have own_first : (enclosing (outer ++ '$' :: inner)).findSome? table.enclosedName? =
        ((table.ask (MappingEntry.owner? .class_ (String.ofList (outer ++ '$' :: inner)))).map
          String.toList).or
        (((enclosing outer).findSome? table.enclosedName?).map (· ++ '$' :: inner)) := by
      rw [enclosing_nested begun solid, ← List.singleton_append, List.findSome?_append,
        List.findSome?_singleton, enclosedName?_itself, (along_enclosedName? table).findSome?]
    have package_last : (enclosing (outer ++ '$' :: inner)).reverse.findSome? table.movedName? =
        (((enclosing outer).reverse.findSome? table.movedName?).map (· ++ '$' :: inner)).or
          (table.packagedName? (outer ++ '$' :: inner)) := by
      rw [enclosing_nested begun solid, List.reverse_cons, List.findSome?_append, ← List.map_reverse,
        List.findSome?_singleton, movedName?_itself, (along_movedName? table).findSome?]
    rw [renamed?_or, own_first, package_last]
    simp only [Option.bind_some, renamed?_or, Option.map_or, Option.or_assoc]

end

end MappingTable

/-! ## Classes in classes and in packages -/

/-- The first class is the second one itself, or it is named behind it with a dollar sign in between. -/
inductive Encloses (name : List Char) : List Char → List Char → Prop
  | itself : Encloses name name []
  | nested {outer rest : List Char} :
      outer ≠ [] → name = outer ++ '$' :: rest → Encloses name outer ('$' :: rest)

/-- The package of a class, and its name in there. -/
inductive InPackage : List Char → String → List Char → Prop
  | unnamed {simple : List Char} : '/' ∉ simple → InPackage simple MappingTable.defaultPackage simple
  | named {package : String} {simple : List Char} :
      '/' ∉ simple → InPackage (package.toList ++ '/' :: simple) package simple

/-- The name of a class in another package. -/
def packaged (package : String) (simple : List Char) : List Char :=
  if package = MappingTable.defaultPackage then simple else package.toList ++ '/' :: simple

/-- No dollar sign stands in front of a slash. -/
def Flat (name : List Char) : Prop :=
  ∀ before after, name = before ++ '/' :: after → '$' ∉ before

theorem flat_iff (name : List Char) : '/' ∉ name.dropWhile (· != '$') ↔ Flat name := by
  constructor
  · -- What stands behind any dollar sign stands behind the first one.
    rintro solid before after rfl within
    obtain ⟨front, back, rfl, free⟩ := List.eq_append_cons_of_mem within
    have passes : ∀ c ∈ front, (c != '$') = true := fun c member =>
      bne_iff_ne.mpr fun same => free (same ▸ member)
    rw [List.append_assoc, List.dropWhile_append_of_pos passes] at solid
    simp at solid
  · intro flat within
    have whole := List.takeWhile_append_dropWhile (p := (· != '$')) (l := name)
    have begins := List.head?_dropWhile_not (· != '$') name
    cases behind : name.dropWhile (· != '$') with
    | nil => simp [behind] at within
    | cons c rest =>
      obtain rfl : c = '$' := by simpa [behind] using begins
      have within : '/' ∈ rest := by simpa [behind] using within
      obtain ⟨front, back, rest_eq⟩ := List.append_of_mem within
      exact flat (name.takeWhile (· != '$') ++ '$' :: front) back
        (whole.symm.trans (by rw [behind, rest_eq]; simp)) (by simp)

instance (name : List Char) : Decidable (Flat name) := decidable_of_iff _ (flat_iff name)

theorem Encloses.append {name outer added : List Char} (encloses : Encloses name outer added) :
    name = outer ++ added := by
  cases encloses with
  | itself => simp
  | nested _ whole => exact whole

theorem Encloses.length_le {name outer added : List Char} (encloses : Encloses name outer added) :
    outer.length ≤ name.length := by
  rw [encloses.append, List.length_append]
  exact Nat.le_add_right _ _

theorem encloses_iff {name outer added : List Char} :
    Encloses name outer added ↔
      name = outer ++ added ∧ (added = [] ∨ outer ≠ [] ∧ added.head? = some '$') := by
  constructor
  · intro encloses
    cases encloses with
    | itself => simp
    | nested begun whole => exact ⟨whole, .inr ⟨begun, rfl⟩⟩
  · rintro ⟨rfl, rfl | ⟨begun, first⟩⟩
    · simpa using Encloses.itself
    · obtain ⟨rest, rfl⟩ := List.head?_eq_some_iff.mp first
      exact .nested begun rfl

theorem Encloses.trans {name outer other added rest : List Char} (far : Encloses outer other rest)
    (near : Encloses name outer added) : Encloses name other (rest ++ added) := by
  cases far with
  | itself => simpa using near
  | nested begun whole => exact .nested begun (by simp [near.append, whole])

/-- Of two classes around a class, the one with the shorter name is around the other one. -/
theorem Encloses.between {name outer other added rest : List Char} (far : Encloses name outer added)
    (near : Encloses name other rest) (shorter : outer.length ≤ other.length) :
    ∃ inner, Encloses other outer inner ∧ added = inner ++ rest := by
  obtain ⟨inner, rfl, rfl⟩ | ⟨extra, rfl, rfl⟩ :=
    List.append_eq_append_iff.mp (far.append.symm.trans near.append)
  · refine ⟨inner, encloses_iff.mpr ⟨rfl, ?_⟩, rfl⟩
    cases inner with
    | nil => exact .inl rfl
    | cons c inner => simpa using (encloses_iff.mp far).2
  · obtain rfl : extra = [] := List.eq_nil_of_length_eq_zero (by rw [List.length_append] at shorter; omega)
    exact ⟨[], by simpa using Encloses.itself, by simp⟩

/-- The classes around a class are those around the class that it is nested in. -/
theorem encloses_nested_iff {outer inner other added : List Char} (begun : outer ≠ [])
    (solid : '$' ∉ inner) :
    Encloses (outer ++ '$' :: inner) other added ↔
      other = outer ++ '$' :: inner ∧ added = [] ∨
        ∃ rest, Encloses outer other rest ∧ added = rest ++ '$' :: inner := by
  have around : Encloses (outer ++ '$' :: inner) outer ('$' :: inner) := .nested begun rfl
  constructor
  · intro encloses
    by_cases shorter : other.length ≤ outer.length
    · exact .inr (encloses.between around shorter)
    · obtain ⟨front, within, split⟩ := around.between encloses (Nat.le_of_not_le shorter)
      cases front with
      | nil =>
        rw [within.append, List.append_nil] at shorter
        exact absurd (Nat.le_refl _) shorter
      | cons c front =>
        obtain ⟨rfl, rfl⟩ := List.cons.inj split
        -- There is no dollar sign behind the last one.
        obtain rfl | ⟨-, first⟩ := (encloses_iff.mp encloses).2
        · exact .inl ⟨by simpa using encloses.append.symm, rfl⟩
        · exact absurd (List.mem_append_right front (List.mem_of_mem_head? first)) solid
  · rintro (⟨rfl, rfl⟩ | ⟨rest, encloses, rfl⟩)
    · exact .itself
    · exact encloses.trans around

theorem encloses_plain {name other added : List Char} (plain : MappingTable.nesting? name = none)
    (encloses : Encloses name other added) : other = name ∧ added = [] := by
  cases encloses with
  | itself => exact ⟨rfl, rfl⟩
  | nested begun whole =>
    subst whole
    obtain ⟨parts, cutting⟩ := Option.ne_none_iff_exists'.mp
      (fun uncut => Text.cutLast?_eq_none_iff.mp uncut (by simp : '$' ∈ other ++ '$' :: _))
    obtain ⟨front, inner⟩ := parts
    obtain ⟨whole, solid⟩ := Text.cutLast?_eq_some_iff.mp cutting
    cases front with
    | nil =>
      -- Then the first character is the last dollar sign, but there is one behind it.
      obtain ⟨c, front, rfl⟩ := List.exists_cons_of_ne_nil begun
      obtain ⟨-, rfl⟩ := List.cons.inj whole
      simp at solid
    | cons c front =>
      rw [MappingTable.nesting?_eq_some_iff.mpr ⟨whole, solid, List.cons_ne_nil c front⟩] at plain
      cases plain

theorem inPackage_iff {name simple : List Char} {package : String} :
    InPackage name package simple ↔ MappingTable.splitPackage name = (package, simple) := by
  constructor
  · intro lies
    cases lies with
    | unnamed solid => rw [MappingTable.splitPackage, Text.cutLast?_eq_none_iff.mpr solid]
    | named solid =>
      rw [MappingTable.splitPackage, Text.cutLast?_eq_some_iff.mpr ⟨rfl, solid⟩]
      exact congrArg (·, simple) String.ofList_toList
  · -- The package ends at the last slash, and there is none without a slash.
    intro parts
    rw [MappingTable.splitPackage] at parts
    split at parts
    next front simple cutting =>
      obtain ⟨rfl, rfl⟩ := Prod.mk.inj parts
      obtain ⟨rfl, solid⟩ := Text.cutLast?_eq_some_iff.mp cutting
      simpa using @InPackage.named (String.ofList front) simple solid
    next cutting =>
      obtain ⟨rfl, rfl⟩ := Prod.mk.inj parts
      exact .unnamed (Text.cutLast?_eq_none_iff.mp cutting)

theorem Flat.nested {outer inner : List Char} (flat : Flat (outer ++ '$' :: inner)) :
    Flat outer ∧ '/' ∉ inner := by
  refine ⟨fun before after whole => ?_, fun within => ?_⟩
  · exact flat before (after ++ '$' :: inner) (by simp [whole])
  · obtain ⟨front, back, rfl⟩ := List.append_of_mem within
    exact flat (outer ++ '$' :: front) back (by simp) (by simp)

theorem InPackage.nested {outer inner simple : List Char} {package : String}
    (lies : InPackage outer package simple) (solid : '/' ∉ inner) :
    InPackage (outer ++ '$' :: inner) package (simple ++ '$' :: inner) := by
  cases lies with
  | unnamed plain => exact .unnamed (by simp [plain, solid])
  | named plain =>
    rw [List.append_assoc, List.cons_append]
    exact .named (by simp [plain, solid])

theorem packaged_append (package : String) (simple added : List Char) :
    packaged package (simple ++ added) = packaged package simple ++ added := by
  rw [packaged, packaged]
  split <;> simp

namespace MappingTable

/-! ## What becomes of a name -/

/-- The last entry of this kind for the old name gives it the new one. -/
def Assigns (table : MappingTable) (kind : MappingKind) (old new : String) : Prop :=
  ∃ before entry after, table.entries = before ++ entry :: after ∧ entry.kind = kind ∧
    entry.oldOwner = old ∧ entry.newOwner = new ∧
    ∀ later ∈ after, later.kind = kind → later.oldOwner ≠ old

theorem ask_owner?_eq_some_iff {table : MappingTable} {kind : MappingKind} {old new : String} :
    table.ask (MappingEntry.owner? kind old) = some new ↔ table.Assigns kind old new := by
  -- The last entry decides, so the search is from behind, and what it passed over comes after.
  rw [ask, List.findSome?_eq_some_iff]
  constructor
  · rintro ⟨after, entry, before, turned, said, silent⟩
    have whole := congrArg List.reverse turned
    obtain ⟨⟨kinds, owners⟩, gives⟩ := Option.ite_none_right_eq_some.mp said
    refine ⟨before.reverse, entry, after.reverse, by simpa using whole, kinds, owners,
      Option.some.inj gives, fun later member kinds owners => ?_⟩
    have quiet := silent later (List.mem_reverse.mp member)
    rw [MappingEntry.owner?, if_pos ⟨kinds, owners⟩] at quiet
    cases quiet
  · rintro ⟨before, entry, after, whole, kinds, owners, gives, silent⟩
    refine ⟨after.reverse, entry, before.reverse, by simp [whole], ?_, fun later member => ?_⟩
    · rw [MappingEntry.owner?, if_pos ⟨kinds, owners⟩, gives]
    · exact if_neg fun same => silent later (List.mem_reverse.mp member) same.1 same.2

theorem Assigns.unique {table : MappingTable} {kind : MappingKind} {old first second : String}
    (one : table.Assigns kind old first) (other : table.Assigns kind old second) : first = second :=
  Option.some.inj ((ask_owner?_eq_some_iff.mpr one).symm.trans (ask_owner?_eq_some_iff.mpr other))

/-- Neither the class nor one around it has an entry. -/
def Unlisted (table : MappingTable) (name : List Char) : Prop :=
  ∀ outer added new, Encloses name outer added → ¬table.Assigns .class_ (String.ofList outer) new

/-- What becomes of the name of a class. -/
inductive Becomes (table : MappingTable) (name : List Char) : Option (List Char) → Prop
  | listed {outer added : List Char} {new : String} (encloses : Encloses name outer added)
      (assigned : table.Assigns .class_ (String.ofList outer) new)
      (innermost : ∀ other rest new, Encloses name other rest →
        table.Assigns .class_ (String.ofList other) new → other.length ≤ outer.length) :
      Becomes table name (some (new.toList ++ added))
  | moved {package new : String} {simple : List Char} (unlisted : table.Unlisted name)
      (lies : InPackage name package simple) (assigned : table.Assigns .package package new)
      (different : packaged new simple ≠ name) : Becomes table name (some (packaged new simple))
  | same {package new : String} {simple : List Char} (unlisted : table.Unlisted name)
      (lies : InPackage name package simple) (assigned : table.Assigns .package package new)
      (equal : packaged new simple = name) : Becomes table name none
  | unknown {package : String} {simple : List Char} (unlisted : table.Unlisted name)
      (lies : InPackage name package simple) (silent : ∀ new, ¬table.Assigns .package package new) :
      Becomes table name none

variable {table : MappingTable} {name : List Char}

theorem packagedName?_eq {package : String} {simple : List Char} (lies : InPackage name package simple) :
    table.packagedName? name = (table.ask (MappingEntry.owner? .package package)).bind fun new =>
      if packaged new simple = name then none else some (packaged new simple) := by
  rw [packagedName?, inPackage_iff.mp lies]
  dsimp only
  cases table.ask (MappingEntry.owner? .package package) <;> rfl

theorem becomes_packaged (unlisted : table.Unlisted name) :
    table.Becomes name (table.packagedName? name) := by
  have lies : InPackage name (splitPackage name).1 (splitPackage name).2 := inPackage_iff.mpr rfl
  rw [packagedName?_eq lies]
  cases asked : table.ask (MappingEntry.owner? .package (splitPackage name).1) with
  | none =>
    refine .unknown unlisted lies fun new assigned => ?_
    rw [ask_owner?_eq_some_iff.mpr assigned] at asked
    cases asked
  | some new =>
    have assigned := ask_owner?_eq_some_iff.mp asked
    rw [Option.bind_some]
    split
    next equal => exact .same unlisted lies assigned equal
    next different => exact .moved unlisted lies assigned different

theorem Becomes.eq_packagedName? {answer : Option (List Char)} (becomes : table.Becomes name answer)
    (unlisted : table.Unlisted name) : answer = table.packagedName? name := by
  cases becomes with
  | listed encloses assigned => exact absurd assigned (unlisted _ _ _ encloses)
  | moved _ lies assigned different =>
    rw [packagedName?_eq lies, ask_owner?_eq_some_iff.mpr assigned, Option.bind_some, if_neg different]
  | same _ lies assigned equal =>
    rw [packagedName?_eq lies, ask_owner?_eq_some_iff.mpr assigned, Option.bind_some, if_pos equal]
  | unknown _ lies silent =>
    have unasked : ∀ new, table.ask (MappingEntry.owner? .package _) ≠ some new := fun new asked =>
      silent new (ask_owner?_eq_some_iff.mp asked)
    rw [packagedName?_eq lies, Option.eq_none_iff_forall_ne_some.mpr unasked, Option.bind_none]

/-- Nothing else becomes of the name. -/
theorem Becomes.unique {first second : Option (List Char)} (one : table.Becomes name first)
    (other : table.Becomes name second) : first = second := by
  by_cases unlisted : table.Unlisted name
  · rw [one.eq_packagedName? unlisted, other.eq_packagedName? unlisted]
  · cases one with
    | listed encloses assigned innermost =>
      cases other with
      | listed encloses' assigned' innermost' =>
        -- Each of the two classes is at least as far inside as the other, and both lie around the
        -- same one.
        have level : _ = _ := Nat.le_antisymm (innermost' _ _ _ encloses assigned)
          (innermost _ _ _ encloses' assigned')
        obtain ⟨rfl, rfl⟩ := List.append_inj (encloses.append.symm.trans encloses'.append) level
        rw [assigned.unique assigned']
      | moved unlisted' => exact absurd unlisted' unlisted
      | same unlisted' => exact absurd unlisted' unlisted
      | unknown unlisted' => exact absurd unlisted' unlisted
    | moved unlisted' => exact absurd unlisted' unlisted
    | same unlisted' => exact absurd unlisted' unlisted
    | unknown unlisted' => exact absurd unlisted' unlisted

/-! ## From a class to the one that it is nested in -/

section

variable {outer inner : List Char} (begun : outer ≠ []) (solid : '$' ∉ inner)
  (unowned : ∀ new, ¬table.Assigns .class_ (String.ofList (outer ++ '$' :: inner)) new)
include begun solid unowned

theorem Unlisted.nested (unlisted : table.Unlisted outer) :
    table.Unlisted (outer ++ '$' :: inner) := by
  intro other added new encloses assigned
  obtain ⟨rfl, -⟩ | ⟨rest, encloses, -⟩ := (encloses_nested_iff begun solid).mp encloses
  · exact unowned new assigned
  · exact unlisted other rest new encloses assigned

/-- What the class around makes of the name, where that is anything. -/
theorem Becomes.nested {new : List Char} (flat : Flat (outer ++ '$' :: inner))
    (becomes : table.Becomes outer (some new)) :
    table.Becomes (outer ++ '$' :: inner) (some (new ++ '$' :: inner)) := by
  generalize answered : some new = answer at becomes
  -- An entry stays the innermost one, since the nested class has none, and a package stays the
  -- same.
  cases becomes with
  | listed encloses assigned innermost =>
    obtain rfl := Option.some.inj answered
    rw [List.append_assoc]
    refine .listed ((encloses_nested_iff begun solid).mpr (.inr ⟨_, encloses, rfl⟩)) assigned ?_
    intro other rest new' encloses' assigned'
    obtain ⟨rfl, -⟩ | ⟨rest', encloses', -⟩ := (encloses_nested_iff begun solid).mp encloses'
    · exact absurd assigned' (unowned new')
    · exact innermost other rest' new' encloses' assigned'
  | moved unlisted lies assigned different =>
    obtain rfl := Option.some.inj answered
    rw [← packaged_append]
    refine .moved (Unlisted.nested begun solid unowned unlisted) (lies.nested (Flat.nested flat).2)
      assigned ?_
    rw [packaged_append]
    exact fun equal => different (List.append_cancel_right equal)
  | same => cases answered
  | unknown => cases answered

end

/-- Where the class around leaves the name alone, no class around it has an entry. -/
theorem Becomes.unlisted (becomes : table.Becomes name none) : table.Unlisted name := by
  generalize answered : none = answer at becomes
  cases becomes with
  | listed => cases answered
  | moved => cases answered
  | same unlisted => exact unlisted
  | unknown unlisted => exact unlisted

theorem becomes_renamed? (flat : Flat name) : table.Becomes name (table.renamed? name) := by
  -- The induction goes from a class to the one that it is nested in.
  induction shorter : name.length using Nat.strongRecOn generalizing name with
  | _ size ih =>
    subst shorter
    rw [renamed?_eq]
    cases own : table.ask (MappingEntry.owner? .class_ (String.ofList name)) with
    | some new =>
      have assigned := ask_owner?_eq_some_iff.mp own
      simpa using Becomes.listed .itself assigned fun _ _ _ encloses _ => encloses.length_le
    | none =>
      have unowned : ∀ new, ¬table.Assigns .class_ (String.ofList name) new := fun new assigned => by
        rw [ask_owner?_eq_some_iff.mpr assigned] at own
        cases own
      rw [Option.map_none, Option.none_or]
      cases nested : nesting? name with
      | none =>
        refine becomes_packaged fun other added new encloses assigned => ?_
        obtain ⟨rfl, -⟩ := encloses_plain nested encloses
        exact unowned new assigned
      | some parts =>
        obtain ⟨outer, inner⟩ := parts
        obtain ⟨rfl, solid, begun⟩ := nesting?_eq_some_iff.mp nested
        have less : outer.length < (outer ++ '$' :: inner).length := by simp
        have around := ih outer.length less (Flat.nested flat).1 rfl
        simp only [Option.bind_some]
        cases answer : table.renamed? outer with
        | some new =>
          rw [answer] at around
          exact around.nested begun solid unowned flat
        | none =>
          rw [answer] at around
          exact becomes_packaged (Unlisted.nested begun solid unowned around.unlisted)

theorem Becomes.renamed?_eq {answer : Option (List Char)} (becomes : table.Becomes name answer)
    (flat : Flat name) : table.renamed? name = answer :=
  (becomes_renamed? flat).unique becomes

/-- The innermost class with an entry decides on the new name, and where there is none, the package. -/
theorem class?_eq_iff {table : MappingTable} {name : String} (flat : Flat name.toList)
    (answer : Option String) :
    table.class? name = answer ↔ table.Becomes name.toList (answer.map String.toList) := by
  have written : table.class? name = answer ↔ table.renamed? name.toList = answer.map String.toList := by
    rw [class?]
    cases table.renamed? name.toList <;> cases answer <;> simp [← String.toList_inj]
  rw [written]
  constructor
  · intro same
    rw [← same]
    exact becomes_renamed? flat
  · intro becomes
    exact becomes.renamed?_eq flat

/-- Classes of a package without a name that are moved, except one, and the classes in that. -/
def movedClasses : MappingTable :=
  ⟨[.ofOwners .package "." "net/src", .ofOwners .class_ "C" "example/Widget",
    .ofOwners .class_ "C$D" "example/Part", .ofOwners .package "a" "a"]⟩

theorem class?_eq_iff_moved :
    Flat "C$D$E$1".toList ∧ movedClasses.Becomes "C$D$E$1".toList (some "example/Part$E$1".toList) ∧
    Flat "B$$1".toList ∧ movedClasses.Becomes "B$$1".toList (some "net/src/B$$1".toList) ∧
    Flat "a/B$C".toList ∧ movedClasses.Becomes "a/B$C".toList none :=
  ⟨by decide, (class?_eq_iff (by decide) (some "example/Part$E$1")).mp (by decide),
    by decide, (class?_eq_iff (by decide) (some "net/src/B$$1")).mp (by decide),
    by decide, (class?_eq_iff (by decide) none).mp (by decide)⟩

end MappingTable

end JarRemap
