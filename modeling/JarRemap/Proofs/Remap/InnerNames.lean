import JarRemap.Proofs.Descriptor.Rename
import JarRemap.Proofs.Mapping.ClassNames
import JarRemap.Proofs.Remap.Changed

/-!
# Records of nested classes after remapping

A class that is nested in another one has the name of that class with its own simple name behind it.
Where nested classes have no entries of their own they are renamed along with the class around them,
and what stands behind its name is kept. The simple name in the record is taken from the new name, and
it is the same again unless it holds a dollar sign or begins with a digit.
-/

namespace JarRemap

open ClassFile ConstantPool Attribute

/-! ## Names behind the name of the class around -/

namespace MappingTable

/-- No entry gives a nested class a name of its own. -/
def TopLevel (table : MappingTable) : Prop :=
  ∀ entry ∈ table.entries, entry.kind = .class_ → '$' ∉ entry.oldOwner.toList

section

variable {table : MappingTable} {outer inner : List Char}

theorem packagedName?_nested (table : MappingTable) (outer : List Char) (solid : '/' ∉ inner) :
    table.packagedName? (outer ++ '$' :: inner) = (table.packagedName? outer).map (· ++ '$' :: inner) := by
  have lies : InPackage outer (splitPackage outer).1 (splitPackage outer).2 := inPackage_iff.mpr rfl
  rw [packagedName?_eq lies, packagedName?_eq (lies.nested solid), Option.map_bind]
  congr 1
  funext new
  rw [packaged_append]
  simp only [Function.comp_apply, List.append_cancel_right_eq]
  split <;> rfl

/-- The package has been asked already if there is no other answer. -/
private theorem renamed?_or_packagedName? (table : MappingTable) (name : List Char) :
    (table.renamed? name).or (table.packagedName? name) = table.renamed? name := by
  rw [renamed?_eq, Option.or_assoc, Option.or_assoc, Option.or_self]

/-- A nested class without an entry is renamed along with the class around it. -/
theorem TopLevel.renamed?_nested (topLevel : table.TopLevel) (begun : outer ≠ []) (solid : '/' ∉ inner) :
    table.renamed? (outer ++ '$' :: inner) = (table.renamed? outer).map (· ++ '$' :: inner) := by
  -- The part behind may hold dollar signs itself, so what follows the last one is taken off first.
  induction size : inner.length using Nat.strongRecOn generalizing inner with
  | ind size ih =>
    have unlisted : table.ask (MappingEntry.owner? .class_ (String.ofList (outer ++ '$' :: inner))) = none := by
      rw [Option.eq_none_iff_forall_ne_some]
      intro new assigned
      obtain ⟨before, entry, after, whole, kind, old, -⟩ := ask_owner?_eq_some_iff.mp assigned
      exact topLevel entry (by simp [whole]) kind (by simp [old])
    obtain ⟨front, back, nests, around⟩ : ∃ front back, nesting? (outer ++ '$' :: inner) = some (front, back) ∧
        (table.renamed? front).map (· ++ '$' :: back) = (table.renamed? outer).map (· ++ '$' :: inner) := by
      cases cutting : Text.cutLast? '$' inner with
      | none =>
        have last := Text.cutLast?_eq_none_iff.mp cutting
        exact ⟨outer, inner, nesting?_eq_some_iff.mpr ⟨rfl, last, begun⟩, rfl⟩
      | some parts =>
        obtain ⟨front, back⟩ := parts
        obtain ⟨rfl, last⟩ := Text.cutLast?_eq_some_iff.mp cutting
        -- The class around it is itself nested in the outer one.
        have nested : outer ++ '$' :: (front ++ '$' :: back) = (outer ++ '$' :: front) ++ '$' :: back := by simp
        have shorter := ih front.length (by simp [← size]) (fun within => solid (by simp [within])) rfl
        refine ⟨outer ++ '$' :: front, back, nesting?_eq_some_iff.mpr ⟨nested, last, by simp⟩, ?_⟩
        rw [shorter, Option.map_map]
        simp [Function.comp_def]
    rw [renamed?_eq, unlisted, nests, Option.bind_some]
    dsimp only
    rw [around, packagedName?_nested table outer solid, Option.map_none, Option.none_or, ← Option.map_or,
      renamed?_or_packagedName?]

end

end MappingTable

namespace SymbolMap

variable {symbols : SymbolMap} {outer simple : String}

/-- What stands behind the name of an outer class is kept when that is renamed. -/
theorem renameReference_nested (topLevel : symbols.table.TopLevel) (begun : outer ≠ "")
    (solid : '/' ∉ simple.toList) (open_ : ';' ∉ simple.toList) {renamed renamed' : Option String}
    (renames : symbols.renameReference outer = .ok renamed)
    (renames' : symbols.renameReference (outer ++ "$" ++ simple) = .ok renamed') :
    renamed' = renamed.map (· ++ "$" ++ simple) := by
  have whole : (outer ++ "$" ++ simple).toList = outer.toList ++ '$' :: simple.toList := by simp
  have begun : outer.toList ≠ [] := by simpa using begun
  have sameHead : (outer ++ "$" ++ simple).toList.head? = outer.toList.head? := by
    rw [whole, List.head?_append_of_ne_nil _ begun]
  rw [renameReference, Descriptor.renameReference] at renames renames'
  rw [sameHead] at renames'
  -- The inner name is an array exactly if the outer one is, as both begin in the same way.
  split at renames
  next array =>
    rw [if_pos array] at renames'
    simp only [bind_ok_iff, pure_ok_iff] at renames renames'
    obtain ⟨alone, found, rfl⟩ := renames
    obtain ⟨all, found', rfl⟩ := renames'
    rw [String.append_assoc] at found' ⊢
    obtain rfl := Descriptor.rename_append (by simpa using open_) found found'
    have cancel : alone ++ ("$" ++ simple) = outer ++ ("$" ++ simple) ↔ alone = outer := by
      simp [← String.toList_inj]
    simp only [cancel]
    split <;> simp [String.append_assoc]
  next plain =>
    rw [if_neg plain] at renames'
    obtain rfl := Except.ok.inj renames
    obtain rfl := Except.ok.inj renames'
    rw [MappingTable.class?, MappingTable.class?, whole, topLevel.renamed?_nested begun solid]
    cases symbols.table.renamed? outer.toList <;> simp [← String.toList_inj]

theorem renamedReference_nested (topLevel : symbols.table.TopLevel) (begun : outer ≠ "")
    (solid : '/' ∉ simple.toList) (open_ : ';' ∉ simple.toList) {outer' inner' : String}
    (renames : symbols.renamedReference outer = .ok outer')
    (renames' : symbols.renamedReference (outer ++ "$" ++ simple) = .ok inner') :
    inner' = outer' ++ "$" ++ simple := by
  obtain ⟨renamed, found, rfl⟩ := (renamedReference_ok_iff _ _ _).mp renames
  obtain ⟨_, found', rfl⟩ := (renamedReference_ok_iff _ _ _).mp renames'
  obtain rfl := renameReference_nested topLevel begun solid open_ found found'
  cases renamed <;> rfl

end SymbolMap

namespace RenamePlan

/-- The simple name is read off what stands behind the name of the outer class. -/
theorem simpleName_nested (outer : List Char) {inner : List Char} (solid : '/' ∉ inner) :
    simpleName (outer ++ '$' :: inner) = simpleName inner := by
  rw [simpleName, simpleName]
  cases cutting : Text.cutLast? '$' inner with
  | none =>
    have last := Text.cutLast?_eq_none_iff.mp cutting
    rw [Text.cutLast?_eq_some_iff.mpr ⟨rfl, last⟩, Text.cutLast?_eq_none_iff.mpr solid]
  | some parts =>
    obtain ⟨front, back⟩ := parts
    obtain ⟨rfl, last⟩ := Text.cutLast?_eq_some_iff.mp cutting
    have nested : outer ++ '$' :: (front ++ '$' :: back) = (outer ++ '$' :: front) ++ '$' :: back := by simp
    rw [nested, Text.cutLast?_eq_some_iff.mpr ⟨rfl, last⟩]

theorem simpleName_eq_self_iff {name : List Char} (solid : '/' ∉ name) :
    simpleName name = name ↔ '$' ∉ name ∧ ∀ c, name.head? = some c → c.isDigit = false := by
  rw [simpleName]
  -- With a dollar sign the simple name is shorter, and without one it only lacks leading digits.
  cases cutting : Text.cutLast? '$' name with
  | none =>
    rw [Text.cutLast?_eq_none_iff.mpr solid]
    simp only [Text.cutLast?_eq_none_iff.mp cutting, not_false_eq_true, true_and]
    cases name with
    | nil => simp
    | cons c rest =>
      rw [List.dropWhile_cons]
      split
      next digit =>
        have shorter : rest.dropWhile Char.isDigit ≠ c :: rest := fun same =>
          absurd (congrArg List.length same) (Nat.ne_of_lt (Nat.lt_succ_of_le (List.length_dropWhile_le _ _)))
        simp [shorter, digit]
      next letter => simpa using letter
  | some parts =>
    obtain ⟨front, back⟩ := parts
    obtain ⟨rfl, -⟩ := Text.cutLast?_eq_some_iff.mp cutting
    have shorter : back.dropWhile Char.isDigit ≠ front ++ '$' :: back := fun same => by
      have longer := congrArg List.length same
      have bound := List.length_dropWhile_le Char.isDigit back
      simp only [List.length_append, List.length_cons] at longer
      omega
    simp [shorter]

end RenamePlan

/-! ## Records before and after -/

/-- The nested class, the class around it and the simple name that a record refers to. -/
structure Attribute.InnerClass.Names (pool : ConstantPool) (record : InnerClass)
    (inner outer simple : String) : Prop where
  inner : pool.className record.inner = .ok inner
  outer : pool.className record.outer = .ok outer
  simple : pool.utf8 record.simpleName = .ok simple

section

variable {symbols : SymbolMap} {before after : ClassFile} {changed : Bool}

/-- A record of a class without an entry keeps its simple name if the class around keeps its name, or
if nothing or the same is read off the new name. -/
theorem renamedInner_eq_none_iff {pool : ConstantPool} {record : InnerClass} {outer simple : String}
    (topLevel : symbols.table.TopLevel) (named : record.simpleName ≠ 0)
    (names : record.Names pool (outer ++ "$" ++ simple) outer simple) (begun : outer ≠ "")
    (solid : '/' ∉ simple.toList) (open_ : ';' ∉ simple.toList) {renamed planned : Option String}
    (renames : symbols.renameReference outer = .ok renamed)
    (looked : RenamePlan.renamedInner symbols pool record = .ok planned) :
    planned = none ↔ renamed = none ∨ RenamePlan.simpleName simple.toList = [] ∨
      RenamePlan.simpleName simple.toList = simple.toList := by
  rw [RenamePlan.renamedInner, if_neg named, names.inner] at looked
  simp only [bind_ok_iff, Except.ok.injEq, exists_eq_left'] at looked
  obtain ⟨_, innerRenames, looked⟩ := looked
  obtain rfl := SymbolMap.renameReference_nested topLevel begun solid open_ renames innerRenames
  cases renamed with
  | none =>
    obtain rfl := Except.ok.inj looked
    simp
  | some new =>
    -- Whatever the class around is called now, the same simple name is read off the new name.
    have read : RenamePlan.simpleName (new ++ "$" ++ simple).toList = RenamePlan.simpleName simple.toList := by
      have whole : (new ++ "$" ++ simple).toList = new.toList ++ '$' :: simple.toList := by simp
      rw [whole, RenamePlan.simpleName_nested _ solid]
    simp only [Option.map_some, names.simple, read, bind_ok_iff, Except.ok.injEq, exists_eq_left',
      pure_ok_iff] at looked
    rw [← looked]
    simp [← String.toList_inj, or_iff_not_imp_left]

/-- Every record of the first list of nested classes is renamed as it was planned. -/
theorem remapClass_inners (indexed : before.pool.Indexed)
    (remapped : Gives (Remap.remapClass symbols) before changed after) {body : Bytes}
    {records : List InnerClass} (there : before.bodyAt .wholeClass innerClassesName = some body)
    (parsed : innerClasses.parse innerClassesName body = .ok records) :
    ∃ body' records', after.bodyAt .wholeClass innerClassesName = some body' ∧
      innerClasses.parse innerClassesName body' = .ok records' ∧
      List.Forall₂ (RenamePlan.InnerRenamed symbols before.pool after.pool) records records' := by
  obtain ⟨plan, middle, _, _, planned, applied, resigned⟩ := remapClass_steps remapped
  have early := RenamePlan.apply_touches indexed applied
  have late := Remap.renameSignatures_touches (early.keeps.indexed indexed) resigned
  obtain ⟨body', records', turned, parsed', renamed⟩ :=
    RenamePlan.apply_inners indexed planned applied there parsed
  have other : ¬ (innerClassesName = signatureName ∨ (innerClassesName = codeName ∧
      ∃ position, Site.wholeClass = .member .method position)) := by simp; decide
  exact ⟨body', records', late.bodyAt other turned, parsed',
    renamed.imp fun _ _ renamed => renamed.later late.keeps⟩

end

/-- A nested class whose name was that of the class around it with the simple name behind it is renamed
along with that class. It has such a name again exactly if no entry gives the class around it a name, or
what follows the last dollar sign of the simple name has nothing but digits, or the simple name has
neither a dollar sign nor a digit in front. -/
theorem remapClass_inner_names (symbols : SymbolMap) (before after : ClassFile) (changed : Bool)
    (indexed : before.pool.Indexed) (remapped : Gives (Remap.remapClass symbols) before changed after)
    (topLevel : symbols.table.TopLevel) (body : Bytes) (records : List InnerClass) (position : Nat)
    (record : InnerClass) (inner outer simple : String)
    (there : before.bodyAt .wholeClass innerClassesName = some body)
    (parsed : innerClasses.parse innerClassesName body = .ok records)
    (here : records[position]? = some record) (named : record.simpleName ≠ 0)
    (names : record.Names before.pool inner outer simple) (agrees : inner = outer ++ "$" ++ simple)
    (begun : outer ≠ "") (unqualified : '/' ∉ simple.toList ∧ ';' ∉ simple.toList) :
    ∃ body' records' record' inner' outer' simple',
      after.bodyAt .wholeClass innerClassesName = some body' ∧
      innerClasses.parse innerClassesName body' = .ok records' ∧
      records'[position]? = some record' ∧ record.SameButName record' ∧
      symbols.renamedReference inner = .ok inner' ∧ symbols.renamedReference outer = .ok outer' ∧
      record'.Names after.pool inner' outer' simple' ∧
      (inner' = outer' ++ "$" ++ simple' ↔ symbols.renameReference outer = .ok none ∨
        RenamePlan.simpleName simple.toList = [] ∨
        '$' ∉ simple.toList ∧ ∀ c, simple.toList.head? = some c → c.isDigit = false) := by
  obtain rfl := agrees
  obtain ⟨body', records', turned, parsed', renamed⟩ := remapClass_inners indexed remapped there parsed
  obtain ⟨record', there', same, planned, looked, kept, renames⟩ := forall₂_getElem? renamed here
  obtain ⟨_, _, -, -, carried⟩ := Remap.remapClass_carried indexed remapped
  obtain ⟨inner', innerRenamed, innerReads⟩ := carried.className names.inner
  obtain ⟨outer', outerRenamed, outerReads⟩ := carried.className names.outer
  have classes : after.pool.className record'.inner = .ok inner' ∧
      after.pool.className record'.outer = .ok outer' := by
    rw [same]
    exact ⟨innerReads, outerReads⟩
  have still := carried.keeps.utf8 names.simple
  obtain rfl := SymbolMap.renamedReference_nested topLevel begun unqualified.1 unqualified.2 outerRenamed
    innerRenamed
  have equation (simple' : String) : outer' ++ "$" ++ simple = outer' ++ "$" ++ simple' ↔ simple' = simple := by
    simp [← String.toList_inj, eq_comm]
  obtain ⟨renamedOuter, outerRenames, -⟩ := (symbols.renamedReference_ok_iff _ _).mp outerRenamed
  have keeps := renamedInner_eq_none_iff topLevel named names begun unqualified.1 unqualified.2
    outerRenames looked
  rw [RenamePlan.simpleName_eq_self_iff unqualified.1] at keeps
  simp only [outerRenames, Except.ok.injEq, ← keeps]
  -- A simple name that is planned differs from the old one, and no other is given.
  cases planned with
  | none =>
    have unplanned := kept rfl
    exact ⟨body', records', record', _, outer', simple, turned, parsed', there', same, innerRenamed,
      outerRenamed, ⟨classes.1, classes.2, unplanned ▸ still⟩, iff_of_true rfl rfl⟩
  | some text =>
    obtain ⟨_, read, differs⟩ := RenamePlan.renamedInner_ne looked
    obtain rfl := Except.ok.inj (names.simple.symm.trans read)
    exact ⟨body', records', record', _, outer', text, turned, parsed', there', same, innerRenamed,
      outerRenamed, ⟨classes.1, classes.2, renames _ rfl⟩, iff_of_false (differs ∘ (equation text).mp) (by simp)⟩

/-- A class with one record, of a class nested in it that has the simple name. -/
def outerOf (outer simple : String) : ClassFile :=
  ⟨0, 52, .ofEntries [.unusable, .utf8 outer, .classRef 1, .utf8 (outer ++ "$" ++ simple), .classRef 3,
    .utf8 simple, .utf8 "InnerClasses"], ⟨0⟩, 2, 0, [], [], [],
    [⟨6, [0, 1, 0, 4, 0, 2, 0, 5, 0, 0]⟩]⟩

/-- Another name for one class. -/
def mappingOf (old new : String) : SymbolMap := ⟨⟨[.ofOwners .class_ old new]⟩, .empty⟩

theorem topLevel_mappingOf {old new : String} (plain : '$' ∉ old.toList) :
    (mappingOf old new).table.TopLevel := by
  intro entry member _
  obtain rfl := List.mem_singleton.mp member
  exact plain

theorem remapClass_inner_names_member :
    (outerOf "A" "B").pool.Indexed ∧ (mappingOf "A" "X").table.TopLevel ∧
    (⟨4, 2, 5, ⟨0⟩⟩ : InnerClass).Names (outerOf "A" "B").pool "A$B" "A" "B" ∧
    ∃ after body records record, Gives (Remap.remapClass (mappingOf "A" "X")) (outerOf "A" "B") true after ∧
      after.bodyAt .wholeClass innerClassesName = some body ∧
      innerClasses.parse innerClassesName body = .ok records ∧ records[0]? = some record ∧
      record.Names after.pool "X$B" "X" "B" := by
  have indexed : (outerOf "A" "B").pool.Indexed := by
    unfold ConstantPool.Indexed
    decide
  have topLevel : (mappingOf "A" "X").table.TopLevel := topLevel_mappingOf (by decide)
  have remapped : Gives (Remap.remapClass (mappingOf "A" "X")) (outerOf "A" "B") true
      (ran (Remap.remapClass (mappingOf "A" "X")) (outerOf "A" "B")).2 := Prod.ext (by decide +kernel) rfl
  have names : (⟨4, 2, 5, ⟨0⟩⟩ : InnerClass).Names (outerOf "A" "B").pool "A$B" "A" "B" :=
    ⟨by decide +kernel, by decide +kernel, by decide +kernel⟩
  obtain ⟨body, records, record, inner, outer, simple, turned, parsed, here, -, renames, renames',
    names', agrees⟩ := remapClass_inner_names (mappingOf "A" "X") (outerOf "A" "B") _ true indexed remapped
      topLevel [0, 1, 0, 4, 0, 2, 0, 5, 0, 0] [⟨4, 2, 5, ⟨0⟩⟩] 0 ⟨4, 2, 5, ⟨0⟩⟩ "A$B" "A" "B"
      (by decide +kernel) (by decide +kernel) rfl (by decide) names (by decide) (by decide) (by decide)
  have innerIs : (mappingOf "A" "X").renamedReference "A$B" = .ok "X$B" := by decide +kernel
  have outerIs : (mappingOf "A" "X").renamedReference "A" = .ok "X" := by decide +kernel
  obtain rfl := Except.ok.inj (renames.symm.trans innerIs)
  obtain rfl := Except.ok.inj (renames'.symm.trans outerIs)
  have kept := agrees.mpr (.inr (.inr ⟨by decide, by simp⟩))
  obtain rfl : simple = "B" := by
    have same := congrArg String.toList kept
    simpa [← String.toList_inj] using same.symm
  exact ⟨indexed, topLevel, names, _, body, records, record, remapped, turned, parsed, here, names'⟩

/-- With entries for classes that are not nested, remapping gives these names to the record that had
the class around and the simple name. -/
def Turns (symbols : SymbolMap) (outer simple inner' outer' simple' : String) : Prop :=
  (∀ entry ∈ symbols.table.entries, entry.kind = .class_ →
    '$' ∉ entry.oldOwner.toList ∧ '$' ∉ entry.newOwner.toList) ∧
  ∃ after body record, Gives (Remap.remapClass symbols) (outerOf outer simple) true after ∧
    after.bodyAt .wholeClass innerClassesName = some body ∧
    innerClasses.parse innerClassesName body = .ok [record] ∧
    InnerClass.Names after.pool record inner' outer' simple'

private theorem turns_of {symbols : SymbolMap} {outer simple inner' outer' simple' : String}
    (body : Bytes) (record : InnerClass)
    (plain : ∀ entry ∈ symbols.table.entries, entry.kind = .class_ →
      '$' ∉ entry.oldOwner.toList ∧ '$' ∉ entry.newOwner.toList)
    (reports : (ran (Remap.remapClass symbols) (outerOf outer simple)).1 = .ok true)
    (turned : (ran (Remap.remapClass symbols) (outerOf outer simple)).2.bodyAt .wholeClass
      innerClassesName = some body)
    (parsed : innerClasses.parse innerClassesName body = .ok [record])
    (names : InnerClass.Names (ran (Remap.remapClass symbols) (outerOf outer simple)).2.pool record
      inner' outer' simple') :
    Turns symbols outer simple inner' outer' simple' :=
  ⟨plain, _, body, record, Prod.ext reports rfl, turned, parsed, names⟩

/-- A simple name with a dollar sign is cut. Otherwise the names differ only where they are no names
of nested classes: the class around has an empty name, the simple name lies in a package, or the class
around is an array and the simple name has a descriptor in it. -/
theorem remapClass_inner_names_differ :
    (∀ outer simple, (outerOf outer simple).bodyAt .wholeClass innerClassesName =
        some [0, 1, 0, 4, 0, 2, 0, 5, 0, 0] ∧
      (⟨4, 2, 5, ⟨0⟩⟩ : InnerClass).Names (outerOf outer simple).pool (outer ++ "$" ++ simple) outer simple) ∧
    Turns (mappingOf "A" "X") "A" "B$C" "X$B$C" "X" "C" ∧
    Turns (mappingOf "" "X") "" "B" "$B" "X" "B" ∧
    Turns ⟨⟨[.ofOwners .package "A$B" "p"]⟩, .empty⟩ "A" "B/C" "p/C" "A" "C" ∧
    Turns (mappingOf "C" "X") "[I" "B$LC;" "[I$B$LX;" "[I" "LX;" := by
  refine ⟨fun outer simple => ⟨rfl, rfl, rfl, rfl⟩,
    turns_of [0, 1, 0, 4, 0, 2, 0, 9, 0, 0] ⟨4, 2, 9, ⟨0⟩⟩ ?_ ?_ ?_ ?_ ⟨?_, ?_, ?_⟩,
    turns_of [0, 1, 0, 4, 0, 2, 0, 5, 0, 0] ⟨4, 2, 5, ⟨0⟩⟩ ?_ ?_ ?_ ?_ ⟨?_, ?_, ?_⟩,
    turns_of [0, 1, 0, 4, 0, 2, 0, 8, 0, 0] ⟨4, 2, 8, ⟨0⟩⟩ ?_ ?_ ?_ ?_ ⟨?_, ?_, ?_⟩,
    turns_of [0, 1, 0, 4, 0, 2, 0, 8, 0, 0] ⟨4, 2, 8, ⟨0⟩⟩ ?_ ?_ ?_ ?_ ⟨?_, ?_, ?_⟩⟩ <;>
    decide +kernel

/-- An entry that gives the class around its own name leaves the names of both classes alone, but the
simple name is cut as if they were new. -/
theorem turns_own_name : Turns (mappingOf "A" "A") "A" "B$C" "A$B$C" "A" "C" := by
  refine turns_of [0, 1, 0, 4, 0, 2, 0, 7, 0, 0] ⟨4, 2, 7, ⟨0⟩⟩ ?_ ?_ ?_ ?_ ⟨?_, ?_, ?_⟩ <;>
    decide +kernel

end JarRemap
