import JarRemap.Proofs.ClassFile.Built
import JarRemap.Proofs.Hierarchy.Classes
import JarRemap.Proofs.Remap.Invertible

/-!
# Remapping there and back

Classes that are remapped by a table and then by its inverse have their old names again. The second
pass works with the hierarchy of the renamed classes, which is the old one under other names.
-/

namespace JarRemap

open RenamePlan
open Descriptor (IsArray)

/-- The class `new` is what remapping makes of `old`. -/
def Remapped (symbols : SymbolMap) (old new : ClassFile) : Prop :=
  ∃ changed, Gives (Remap.remapClass symbols) old changed new

/-- Whatever the old class names, the new one names the same in the same place. -/
structure Restored (old new : ClassFile) : Prop where
  name : new.name = old.name
  superName : new.superName = old.superName
  interfaceNames : new.interfaceNames = old.interfaceNames
  classes : ∀ {index name}, old.pool.className index = .ok name → new.pool.className index = .ok name
  references : ∀ {index reference}, old.pool.memberReference index = .ok reference →
    new.pool.memberReference index = .ok reference
  symbols : ∀ kind, new.symbols kind = old.symbols kind

namespace RenamePlan.Carried

variable {symbols : SymbolMap} {bootstrap : List Attribute.BootstrapMethod} {owner : String}
  {old new : ClassFile}

/-- A class that is no array says about itself what it said before, under new names. -/
theorem defines (carried : Carried symbols bootstrap owner old new) {definition : ClassDefinition}
    (defines : Hierarchy.Defines old definition) (plain : ¬ IsArray definition.name)
    (plains : ∀ name ∈ definition.supertypes, ¬ IsArray name) :
    Hierarchy.Defines new (definition.map symbols.table.class?.apply) := by
  have names : ∀ {index name}, old.pool.className index = .ok name → ¬ IsArray name →
      new.pool.className index = .ok (symbols.table.class?.apply name) := by
    intro index name named plain
    obtain ⟨renamed, renames, reads⟩ := carried.className named
    rw [SymbolMap.renamedReference_of_plain plain] at renames
    rwa [← Except.ok.inj renames] at reads
  obtain ⟨named, superName, interfaces, derives, implements, supertypes⟩ := defines
  rw [supertypes] at plains
  obtain ⟨above, beside⟩ := List.forall_mem_append.mp plains
  refine ⟨?_, superName.map symbols.table.class?.apply, interfaces.map symbols.table.class?.apply,
    ?_, ?_, ?_⟩
  · rw [ClassFile.name, carried.thisClass]
    exact names named plain
  · rw [ClassFile.superName_ok_iff, carried.superClass]
    rcases (ClassFile.superName_ok_iff old superName).mp derives with
      ⟨root, rfl⟩ | ⟨derived, name, reads, rfl⟩
    · exact .inl ⟨root, rfl⟩
    · exact .inr ⟨derived, _, names reads (above name (by simp)), rfl⟩
  · rw [ClassFile.interfaceNames, mapM_ok_iff] at implements ⊢
    rw [carried.interfaces, List.forall₂_map_right_iff]
    -- Each interface is known to be no array, so it is renamed as a class.
    have both := (List.forall₂_and_left _ _).mpr ⟨beside, implements.flip⟩
    exact both.flip.imp fun index name found => names found.2 found.1
  · cases superName <;> simp [ClassDefinition.map, supertypes]

end RenamePlan.Carried

/-! ## The hierarchy of the renamed classes -/

namespace Hierarchy

/-- What is known about classes with different names, and the hierarchy that they define. -/
private theorem definitions_of_classes {files : List ClassFile} {hierarchy : Hierarchy}
    (whole : ∀ file ∈ files, file.Whole) (distinct : (files.map ClassFile.name).Nodup)
    (defined : ofClasses files = .ok hierarchy) :
    List.Forall₂ Defines files hierarchy.classes ∧
      (hierarchy.classes.map ClassDefinition.name).Nodup := by
  obtain ⟨definitions, defines, apart, made⟩ :=
    exists_ofClasses (fun file member => (whole file member).resolves) distinct
  obtain rfl := Except.ok.inj (made.symm.trans defined)
  exact ⟨defines, apart⟩

/-- Every name of the hierarchy is that of a class entry. -/
private theorem names_mentioned {files : List ClassFile} {hierarchy : Hierarchy}
    (defines : List.Forall₂ Defines files hierarchy.classes)
    (plain : hierarchy.Names fun name => ¬ IsArray name) : hierarchy.Names (MentionedIn files) := by
  intro definition member
  obtain ⟨here, there⟩ := plain definition member
  obtain ⟨position, at_⟩ := List.mem_iff_getElem?.mp member
  obtain ⟨file, among, named, superName, interfaces, derives, implements, supertypes⟩ :=
    forall₂_getElem? defines.flip at_
  have found : file ∈ files := List.mem_of_getElem? among
  refine ⟨⟨here, file, found, .class_ named here⟩,
    fun name above => ⟨there name above, file, found, ?_⟩⟩
  -- A supertype is either the superclass or one of the interfaces, each of which has a class entry.
  rw [supertypes, List.mem_append, Option.mem_toList] at above
  rcases above with above | beside
  · subst above
    rcases (ClassFile.superName_ok_iff _ _).mp derives with ⟨-, ⟨⟩⟩ | ⟨-, _, reads, ⟨⟩⟩
    exact .class_ reads (there _ (by simp [supertypes]))
  · obtain ⟨place, at_⟩ := List.mem_iff_getElem?.mp beside
    obtain ⟨index, -, reads⟩ := forall₂_getElem? ((mapM_ok_iff _ _ _).mp implements).flip at_
    exact .class_ reads (there _ (by simp [supertypes, beside]))

end Hierarchy

section

variable {table inverse : MappingTable} {hierarchy : Hierarchy} {files : List ClassFile}

/-- Renamed classes define the old hierarchy under its new names. -/
private theorem ofClasses_renamed {renamed : List ClassFile}
    (invertible : Invertible table inverse hierarchy files)
    (whole : ∀ file ∈ files, file.Whole)
    (distinct : (hierarchy.classes.map ClassDefinition.name).Nodup)
    (defines : List.Forall₂ Hierarchy.Defines files hierarchy.classes)
    (names : hierarchy.Names (MentionedIn files))
    (remapped : List.Forall₂ (Remapped ⟨table, hierarchy⟩) files renamed) :
    Hierarchy.ofClasses renamed = .ok (hierarchy.map table.class?.apply) := by
  refine Hierarchy.ofClasses_of_defines ?_ ?_
  · refine forall₂_of_getElem? ?_ fun position new here => ?_
    · rw [List.length_map, ← defines.length_eq, remapped.length_eq]
    · obtain ⟨old, there, changed, gives⟩ := forall₂_getElem? remapped.flip here
      obtain ⟨definition, found, defines⟩ := forall₂_getElem? defines there
      obtain ⟨owner, bootstrap, -, -, carried⟩ := Remap.remapClass_carried
        (whole old (List.mem_of_getElem? there)).sound.indexed gives
      obtain ⟨⟨plain, -⟩, plains⟩ := names definition (List.mem_of_getElem? found)
      refine ⟨definition.map table.class?.apply, by rw [List.getElem?_map, found]; rfl, ?_⟩
      exact carried.defines defines plain fun name above => (plains name above).1
  · have renames : (hierarchy.classes.map (ClassDefinition.map table.class?.apply)).map
        ClassDefinition.name = (hierarchy.classes.map ClassDefinition.name).map table.class?.apply := by
      rw [List.map_map, List.map_map]
      rfl
    rw [renames]
    -- Two classes with one new name would have the same old name.
    refine distinct.map_on fun first one second other same => ?_
    obtain ⟨definition, defined, rfl⟩ := List.mem_map.mp one
    obtain ⟨definition', defined', rfl⟩ := List.mem_map.mp other
    exact invertible.injective _ _ (names definition defined).1.2 (names definition' defined').1.2
      same

section

variable (invertible : Invertible table inverse hierarchy files)
  {file middle last : ClassFile} (member : file ∈ files)
  {bootstrap bootstrap' : List Attribute.BootstrapMethod} {owner newOwner : String}
  (there : Carried ⟨table, hierarchy⟩ bootstrap owner file middle)
  (back : Carried ⟨inverse, hierarchy.map table.class?.apply⟩ bootstrap' newOwner middle last)

include invertible member there back

private theorem classes_back {index : Index} {name : String}
    (named : file.pool.className index = .ok name) : last.pool.className index = .ok name := by
  obtain ⟨renamed, renames, reads⟩ := there.className named
  obtain ⟨restored, restores, reads'⟩ := back.className reads
  obtain rfl := Except.ok.inj
    ((invertible.reference_back member _ named renames).symm.trans restores)
  exact reads'

variable (inverted : table.inverse = .ok inverse)
  (names : hierarchy.Names (MentionedIn files))

include inverted names

private theorem references_back {index : Index} {reference : MemberReference}
    (read : file.pool.memberReference index = .ok reference) :
    last.pool.memberReference index = .ok reference := by
  obtain ⟨middleOwner, symbol, moves, renames, reads⟩ := there.memberReference read
  obtain ⟨lastOwner, symbol', moves', renames', reads'⟩ := back.memberReference reads
  have known : file.HasSymbol _ _ _ _ := .referenced read
  obtain ⟨place, named⟩ := known.className
  obtain rfl := Except.ok.inj
    ((invertible.reference_back member _ named moves).symm.trans moves')
  obtain rfl := Except.ok.inj
    ((invertible.symbol_back member inverted names known moves renames).symm.trans renames')
  exact reads'

/-- The second pass looks a member up by the name that the first gave to its class. -/
private theorem symbols_back (owned : file.name = .ok owner) (owned' : middle.name = .ok newOwner)
    (kind : MemberKind) : last.symbols kind = file.symbols kind := by
  obtain ⟨moved, moves, reads⟩ := there.className owned
  rw [← there.thisClass] at reads
  obtain rfl := Except.ok.inj (owned'.symm.trans reads)
  refine mapM_congr (forall₂_of_getElem? ?_ fun position old here => ?_)
  · rw [back.members_length, there.members_length]
  · obtain ⟨symbol, renamed, new, read, renames, here', read'⟩ := there.member here
    obtain ⟨_, restored, newest, read'', restores, here'', reads'⟩ := back.member here'
    obtain rfl := Except.ok.inj (read'.symm.trans read'')
    have known : file.HasSymbol kind owner symbol.1 symbol.2 :=
      .declared owned (List.mem_of_getElem? here) read
    obtain rfl := Except.ok.inj
      ((invertible.symbol_back member inverted names known moves renames).symm.trans restores)
    exact ⟨newest, here'', reads'.trans read.symm⟩

private theorem restored_of_carried (resolves : file.Resolves) (owned : file.name = .ok owner)
    (owned' : middle.name = .ok newOwner) : Restored file last := by
  -- Both times the same slots are used, so it is enough to follow what they say.
  have classes : ∀ {index name}, file.pool.className index = .ok name →
      last.pool.className index = .ok name := classes_back invertible member there back
  have thisClass : last.thisClass = file.thisClass := back.thisClass.trans there.thisClass
  have superClass : last.superClass = file.superClass := back.superClass.trans there.superClass
  have interfaces : last.interfaces = file.interfaces := back.interfaces.trans there.interfaces
  refine ⟨?_, ?_, ?_, classes, references_back invertible member there back inverted names,
    symbols_back invertible member there back inverted names owned owned'⟩
  · rw [ClassFile.name, thisClass, classes owned, owned]
  · obtain ⟨superName, derives⟩ := (ClassFile.exists_superName_iff file).mpr resolves.superName
    rw [derives, ClassFile.superName_ok_iff, superClass]
    refine ((ClassFile.superName_ok_iff file superName).mp derives).imp id ?_
    rintro ⟨derived, name, reads, rfl⟩
    exact ⟨derived, name, classes reads, rfl⟩
  · rw [ClassFile.interfaceNames, ClassFile.interfaceNames, interfaces]
    refine mapM_congr (List.forall₂_same.mpr fun index implemented => ?_)
    obtain ⟨name, named⟩ := resolves.interfaces index implemented
    rw [named, classes named]

end

end

/-- If the inverse of a table restores all names that some classes mention, remapping the classes by
the table and then by its inverse restores all of the classes and members that they name. -/
theorem remapClass_inverse (table inverse : MappingTable) (hierarchy : Hierarchy)
    (files renamed : List ClassFile) (inverted : table.inverse = .ok inverse)
    (decoded : ∀ file ∈ files, ∃ bytes, ClassFile.decode bytes = .ok file)
    (distinct : (files.map ClassFile.name).Nodup)
    (defined : Hierarchy.ofClasses files = .ok hierarchy)
    (plain : hierarchy.Names fun name => ¬ IsArray name)
    (invertible : Invertible table inverse hierarchy files)
    (remapped : List.Forall₂ (Remapped ⟨table, hierarchy⟩) files renamed) :
    ∃ others, Hierarchy.ofClasses renamed = .ok others ∧
      ∀ restored, List.Forall₂ (Remapped ⟨inverse, others⟩) renamed restored →
        List.Forall₂ Restored files restored := by
  have whole : ∀ file ∈ files, file.Whole := fun file member =>
    (decoded file member).elim fun _ => ClassFile.whole_decoded
  obtain ⟨defines, apart⟩ := Hierarchy.definitions_of_classes whole distinct defined
  have names := Hierarchy.names_mentioned defines plain
  refine ⟨_, ofClasses_renamed invertible whole apart defines names remapped,
    fun restored again => ?_⟩
  -- A class is found at its place in all three lists, and it is remapped twice there.
  refine forall₂_of_getElem? ?_ fun position file here => ?_
  · rw [← again.length_eq, remapped.length_eq]
  · obtain ⟨middle, here', _, gives⟩ := forall₂_getElem? remapped here
    obtain ⟨last, here'', _, gives'⟩ := forall₂_getElem? again here'
    have member := List.mem_of_getElem? here
    have indexed := (whole file member).sound.indexed
    obtain ⟨owner, bootstrap, owned, -, there⟩ := Remap.remapClass_carried indexed gives
    obtain ⟨newOwner, bootstrap', owned', -, back⟩ :=
      Remap.remapClass_carried (there.keeps.indexed indexed) gives'
    exact ⟨last, here'', restored_of_carried invertible member there back inverted names
      (whole file member).resolves owned owned'⟩

/-! ## A method that is inherited -/

/-- A class `A` with a method `m`. -/
def declaring : ClassFile :=
  ⟨0, 52, .ofEntries [.unusable, .utf8 "A", .classRef 1, .utf8 "m", .utf8 "(LA;)V"], ⟨0⟩, 2, 0, [], [],
    [⟨⟨0⟩, 3, 4, []⟩], []⟩

/-- A class `B` that extends `A` and calls `m` through its own name. -/
def inheriting : ClassFile :=
  ⟨0, 52, .ofEntries [.unusable, .utf8 "B", .classRef 1, .utf8 "A", .classRef 3, .utf8 "m",
    .utf8 "(LA;)V", .nameAndType 5 6, .methodRef 2 7], ⟨0⟩, 2, 4, [], [], [], []⟩

/-- New names for both classes, and for the method where it is declared. -/
def inheritedNames : MappingTable :=
  ⟨[.ofOwners .class_ "A" "X", .ofOwners .class_ "B" "Y",
    ⟨.method, "A", "X", some "m", some "n", some "(LA;)V", some "(LX;)V"⟩]⟩

def inheritedBack : MappingTable :=
  ⟨[.ofOwners .class_ "X" "A", .ofOwners .class_ "Y" "B",
    ⟨.method, "X", "A", some "n", some "m", some "(LX;)V", some "(LA;)V"⟩]⟩

/-- What holds of everything that can be read from the first slots holds of all that can be read. -/
private theorem of_slots {α : Type} (holds : α → Prop) {read : Index → Except Fault α} {size : Nat}
    (bounded : ∀ index value, read index = .ok value → index.toNat < size)
    (slots : ∀ slot < size, ∀ value ∈ (read (UInt16.ofNat slot)).toOption, holds value)
    {index : Index} {value : α} (found : read index = .ok value) : holds value := by
  refine slots index.toNat (bounded index value found) value ?_
  rw [UInt16.ofNat_toNat, found]
  rfl

private theorem className_bounded (pool : ConstantPool) (index : Index) (name : String)
    (named : pool.className index = .ok name) : index.toNat < pool.entries.size := by
  obtain ⟨text, here⟩ := ConstantPool.entry_of_className named
  exact (Array.getElem?_eq_some_iff.mp here).1

private theorem memberReference_bounded (pool : ConstantPool) (index : Index)
    (reference : MemberReference) (read : pool.memberReference index = .ok reference) :
    index.toNat < pool.entries.size := by
  obtain ⟨constant, kind, place, slot, here, parts⟩ := ConstantPool.entry_of_memberReference read
  exact (Array.getElem?_eq_some_iff.mp here).1

private theorem inherited_className {file : ClassFile} (member : file ∈ [declaring, inheriting])
    {index : Index} {name : String} (named : file.pool.className index = .ok name) :
    name ∈ ["A", "B"] := by
  simp only [List.mem_cons, List.not_mem_nil, or_false] at member
  rcases member with rfl | rfl
  · exact of_slots (· ∈ ["A", "B"]) (className_bounded _) (by decide +kernel) named
  · exact of_slots (· ∈ ["A", "B"]) (className_bounded _) (by decide +kernel) named

private theorem inherited_symbol {file : ClassFile} (member : file ∈ [declaring, inheriting])
    {kind : MemberKind} {owner name descriptor : String}
    (symbol : file.HasSymbol kind owner name descriptor) :
    kind = .method ∧ owner ∈ ["A", "B"] ∧ name = "m" ∧ descriptor = "(LA;)V" := by
  cases symbol with
  | @declared kind owner name descriptor method owned found read =>
    have known : ∀ method ∈ file.members kind, ∀ symbol ∈ (file.symbol method).toOption,
        kind = .method ∧ symbol = ("m", "(LA;)V") := by
      simp only [List.mem_cons, List.not_mem_nil, or_false] at member
      rcases member with rfl | rfl <;> cases kind <;> decide +kernel
    obtain ⟨rfl, same⟩ := known method found (name, descriptor) (by rw [read]; rfl)
    obtain ⟨rfl, rfl⟩ := Prod.mk.inj same
    exact ⟨rfl, inherited_className member owned, rfl, rfl⟩
  | @referenced index reference read =>
    have only : reference = ⟨.method, "B", "m", "(LA;)V"⟩ := by
      simp only [List.mem_cons, List.not_mem_nil, or_false] at member
      rcases member with rfl | rfl
      · exact of_slots (· = _) (memberReference_bounded _) (by decide +kernel) read
      · exact of_slots (· = _) (memberReference_bounded _) (by decide +kernel) read
    subst only
    exact ⟨rfl, by simp, rfl, rfl⟩

private theorem inherited_mentions {file : ClassFile} (member : file ∈ [declaring, inheriting])
    {name : String} (mentions : file.Mentions name) : name ∈ ["A", "B"] := by
  cases mentions with
  | class_ named => exact inherited_className member named
  | @array _ array named isArray =>
    have plain : ∀ name ∈ ["A", "B"], ¬ IsArray name := by decide
    exact absurd isArray (plain array (inherited_className member named))
  | symbol symbol within =>
    obtain ⟨-, -, -, rfl⟩ := inherited_symbol member symbol
    have names : ∀ name ∈ Descriptor.classNames "(LA;)V", name ∈ ["A", "B"] := by decide +kernel
    exact names name within

private theorem inherited_invertible :
    Invertible inheritedNames inheritedBack ⟨[⟨"A", []⟩, ⟨"B", ["A"]⟩]⟩ [declaring, inheriting] where
  restores file member name mentions := by
    have back : ∀ name ∈ ["A", "B"],
        inheritedBack.class?.apply (inheritedNames.class?.apply name) = name := by decide +kernel
    exact back name (inherited_mentions member mentions)
  plain file member name mentions := by
    have plain : ∀ name ∈ ["A", "B"], ';' ∉ (inheritedNames.class?.apply name).toList ∧
        ¬ IsArray (inheritedNames.class?.apply name) := by decide +kernel
    exact plain name (inherited_mentions member mentions)
  owners entry listed _ _ := by
    have moved : ∀ entry ∈ inheritedNames.entries,
        entry.newOwner = inheritedNames.class?.apply entry.oldOwner ∧ ¬ IsArray entry.oldOwner ∧
          ¬ IsArray entry.newOwner := by decide +kernel
    exact moved entry listed
  descriptors entry listed isMethod descriptor renamed old renames := by
    have given : Descriptor.rename inheritedNames.class? "(LA;)V" = .ok "(LX;)V" := by decide +kernel
    simp only [inheritedNames, MappingEntry.ofOwners, List.mem_cons, List.not_mem_nil, or_false]
      at listed
    rcases listed with rfl | rfl | rfl <;> cases old
    obtain rfl := Except.ok.inj (renames.symm.trans given)
    rfl
  unreserved := by simp [inheritedNames, MappingEntry.ofOwners, SymbolMap.reservedMethods]
  members file member kind owner name descriptor symbol := by
    obtain ⟨rfl, -, rfl, rfl⟩ := inherited_symbol member symbol
    simp [inheritedNames, MappingEntry.ofOwners, MemberKind.mapping]

theorem remapClass_inverse_inherited :
    ∃ hierarchy renamed others restored,
      Hierarchy.ofClasses [declaring, inheriting] = .ok hierarchy ∧
      inheritedNames.inverse = .ok inheritedBack ∧
      Invertible inheritedNames inheritedBack hierarchy [declaring, inheriting] ∧
      List.Forall₂ (Remapped ⟨inheritedNames, hierarchy⟩) [declaring, inheriting] renamed ∧
      (renamed.map fun file => (file.pool.memberReference 8).toOption) =
        [none, some ⟨.method, "Y", "n", "(LX;)V"⟩] ∧
      Hierarchy.ofClasses renamed = .ok others ∧
      List.Forall₂ (Remapped ⟨inheritedBack, others⟩) renamed restored ∧
      List.Forall₂ Restored [declaring, inheriting] restored := by
  have inverted : inheritedNames.inverse = .ok inheritedBack := by decide +kernel
  have decoded : ∀ file ∈ [declaring, inheriting],
      ClassFile.decode (file.encode.toOption.getD []) = .ok file := by decide +kernel
  have distinct : ([declaring, inheriting].map ClassFile.name).Nodup := by decide +kernel
  have defined : Hierarchy.ofClasses [declaring, inheriting] =
      .ok ⟨[⟨"A", []⟩, ⟨"B", ["A"]⟩]⟩ := by decide +kernel
  obtain ⟨renamed, remapped, read, defined', restored, again⟩ :
      ∃ renamed, List.Forall₂ (Remapped ⟨inheritedNames, ⟨[⟨"A", []⟩, ⟨"B", ["A"]⟩]⟩⟩)
          [declaring, inheriting] renamed ∧
        (renamed.map fun file => (file.pool.memberReference 8).toOption) =
          [none, some ⟨.method, "Y", "n", "(LX;)V"⟩] ∧
        Hierarchy.ofClasses renamed = .ok ⟨[⟨"X", []⟩, ⟨"Y", ["X"]⟩]⟩ ∧
        ∃ restored, List.Forall₂ (Remapped ⟨inheritedBack, ⟨[⟨"X", []⟩, ⟨"Y", ["X"]⟩]⟩⟩) renamed
          restored :=
    ⟨_, .cons ⟨true, Prod.ext (by decide +kernel) rfl⟩
        (.cons ⟨true, Prod.ext (by decide +kernel) rfl⟩ .nil),
      by decide +kernel, by decide +kernel, _,
      .cons ⟨true, Prod.ext (by decide +kernel) rfl⟩
        (.cons ⟨true, Prod.ext (by decide +kernel) rfl⟩ .nil)⟩
  obtain ⟨others, same, restores⟩ := remapClass_inverse inheritedNames inheritedBack _
    [declaring, inheriting] renamed inverted (fun file member => ⟨_, decoded file member⟩) distinct
    defined (by simp [Hierarchy.Names, IsArray]) inherited_invertible remapped
  obtain rfl := Except.ok.inj (same.symm.trans defined')
  exact ⟨_, renamed, _, restored, defined, inverted, inherited_invertible, remapped, read, defined',
    again, restores restored again⟩

end JarRemap
