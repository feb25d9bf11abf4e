import JarRemap.Proofs.Remap.Meaning
import JarRemap.Proofs.Remap.Signatures
import JarRemap.Proofs.RenamePlan.Bodies

/-!
# Attributes before and after remapping

Signatures, tables of local variables and the enclosing method get new names, all of them for the
names that the class had when nothing was changed yet. Everything else in the class stays, down to
the bytes of every instruction.
-/

namespace JarRemap

open ClassFile ConstantPool Attribute Remap

/-- The attributes that may get another body. -/
def Renamable (site : Site) (name : String) : Prop :=
  name = signatureName ∨ (name = codeName ∧ ∃ position, site = .member .method position) ∨
    site = .wholeClass ∧ (name = innerClassesName ∨ name = enclosingMethodName)

section

variable {symbols : SymbolMap} {before after : ClassFile} {changed : Bool}

theorem remapClass_steps (gives : Gives (remapClass symbols) before changed after) :
    ∃ plan middle planned resigned, RenamePlan.ofClass symbols before = .ok plan ∧
      Gives plan.apply before planned middle ∧ Gives (renameSignatures symbols) middle resigned after := by
  simp only [remapClass, gives_bind_iff, gives_read_iff, gives_pure_iff] at gives
  obtain ⟨plan, _, ⟨planned, rfl⟩, _, middle, applied, _, _, resigned, -, rfl⟩ := gives
  exact ⟨plan, middle, _, _, planned, applied, resigned⟩

private theorem attributeList_ne_nil {file : ClassFile} {site : Site} {name : String} {body : Bytes}
    (there : file.bodyAt site name = some body) : file.attributeList site ≠ [] := by
  obtain ⟨front, item, back, first, -⟩ := first_of_body? there
  simp [first.split]

/-- Wherever there is an attribute, signatures are renamed in. -/
private theorem signature_mem_tasks {file : ClassFile} {site : Site} {name : String} {body : Bytes}
    (there : file.bodyAt site name = some body) : Task.signature site ∈ tasks file := by
  have exists_ := attributesAt_isSome (attributeList_ne_nil there)
  rw [mem_tasks_iff]
  cases site with
  | wholeClass => exact .inl rfl
  | member kind position =>
    have within : position < (file.members kind).length := by
      simpa [attributesAt] using exists_
    cases kind with
    | field => exact .inr (.inl ⟨position, within, rfl⟩)
    | method => exact .inr (.inr ⟨position, within, .inl rfl⟩)

private theorem locals_mem_tasks {file : ClassFile} {position : Nat} {name : String} {body : Bytes}
    (there : file.bodyAt (.member .method position) name = some body) :
    Task.locals (.member .method position) ∈ tasks file := by
  have member := signature_mem_tasks there
  simp only [mem_tasks_iff, reduceCtorEq, Task.signature.injEq, Site.member.injEq, false_or,
    false_and, and_false, exists_false, or_false, true_and] at member
  obtain ⟨_, within, rfl⟩ := member
  exact (mem_tasks_iff _ _).mpr (.inr (.inr ⟨position, within, .inr rfl⟩))

end

/-- After remapping, the first signature of each site refers to the new name of the text that it
referred to before, each record of the tables of local variables in the first code of a method refers
to the new descriptor or signature and is the same otherwise, and a class inside a method is inside
the method as it is called now. -/
theorem remapClass_attributes (symbols : SymbolMap) (before after : ClassFile) (changed : Bool)
    (indexed : before.pool.Indexed) (remapped : Gives (remapClass symbols) before changed after) :
    (∀ site body, before.bodyAt site signatureName = some body →
      ∃ body', after.bodyAt site signatureName = some body' ∧
        SignatureRenamed symbols before.pool after.pool body body') ∧
    (∀ position body, before.bodyAt (.member .method position) codeName = some body →
      ∃ body', after.bodyAt (.member .method position) codeName = some body' ∧
        CodeRenamed symbols before.pool after.pool body body') ∧
    ∀ body place, before.bodyAt .wholeClass enclosingMethodName = some body →
      enclosingMethod.parse enclosingMethodName body = .ok place → place.method ≠ 0 →
      ∃ owner name descriptor newOwner newSymbol body' place',
        before.pool.className place.owner = .ok owner ∧
        before.pool.nameAndType place.method = .ok (name, descriptor) ∧
        symbols.renamedReference owner = .ok newOwner ∧
        symbols.renamedSymbol .method owner name descriptor = .ok newSymbol ∧
        after.bodyAt .wholeClass enclosingMethodName = some body' ∧
        enclosingMethod.parse enclosingMethodName body' = .ok place' ∧
        after.pool.className place'.owner = .ok newOwner ∧
        after.pool.nameAndType place'.method = .ok newSymbol := by
  obtain ⟨owner, bootstrap, -, -, carried⟩ := remapClass_carried indexed remapped
  obtain ⟨plan, middle, _, _, planned, applied, resigned⟩ := remapClass_steps remapped
  have early := RenamePlan.apply_touches indexed applied
  have indexed' := early.keeps.indexed indexed
  have late := renameSignatures_touches indexed' resigned
  refine ⟨fun site body there => ?_, fun position body there => ?_,
    fun body place there parsed inside => ?_⟩
  · -- A plan is only about the nested classes, so the body is still the old one when its turn
    -- comes.
    have other : ¬ (site = .wholeClass ∧
        (signatureName = innerClassesName ∨ signatureName = enclosingMethodName)) := by
      rintro ⟨-, same⟩
      revert same
      decide
    have still := early.bodyAt other there
    obtain ⟨body', work, turned⟩ :=
      renameSignatures_work indexed' resigned (signature_mem_tasks still) still
    exact ⟨body', turned, SignatureRenamed.widen work early.keeps (refl _)⟩
  · have other : ¬ (Site.member .method position = .wholeClass ∧
        (codeName = innerClassesName ∨ codeName = enclosingMethodName)) := by simp
    have still := early.bodyAt other there
    obtain ⟨body', work, turned⟩ :=
      renameSignatures_work indexed' resigned (locals_mem_tasks still) still
    exact ⟨body', turned, CodeRenamed.widen work early.keeps (refl _)⟩
  · obtain ⟨className, symbol, renamed, body', named, described, looked, turned, method, parsed',
      encloses⟩ := RenamePlan.apply_enclosing indexed planned applied there parsed inside
    have other : ¬ (enclosingMethodName = signatureName ∨ (enclosingMethodName = codeName ∧
        ∃ position, Site.wholeClass = .member .method position)) := by simp; decide
    obtain ⟨newOwner, renames, reads⟩ := carried.className named
    exact ⟨className, symbol.1, symbol.2, newOwner, _, body', _, named, described, renames,
      RenamePlan.renamedSymbol_of_member looked, late.bodyAt other turned, parsed', reads,
      late.keeps.nameAndType encloses⟩

/-- One instruction, with both tables of local variables. -/
def enclosedCode : Bytes :=
  [0, 0, 0, 1, 0, 0, 0, 1, 0xB1, 0, 0, 0, 2, 0, 8, 0, 0, 0, 12, 0, 1, 0, 0, 0, 1, 0, 9, 0, 4, 0, 0, 0, 14, 0,
    0, 0, 12, 0, 1, 0, 0, 0, 1, 0, 9, 0, 15, 0, 0]

/-- A class `A` in the method `m` of a class `O`, with a signature. Its own method has one local variable,
with a descriptor and a signature. All of these refer to the class itself. -/
def enclosed : ClassFile :=
  ⟨0, 52, .ofEntries [.unusable, .utf8 "A", .classRef 1, .utf8 "Signature", .utf8 "LA;", .utf8 "m",
    .utf8 "(LA;)V", .utf8 "Code", .utf8 "LocalVariableTable", .utf8 "x", .utf8 "EnclosingMethod",
    .utf8 "O", .classRef 11, .nameAndType 5 6, .utf8 "LocalVariableTypeTable", .utf8 "LA<LA;>;"], ⟨0⟩,
    2, 0, [], [], [⟨⟨0⟩, 5, 6, [⟨7, enclosedCode⟩]⟩], [⟨3, [0, 4]⟩, ⟨10, [0, 12, 0, 13]⟩]⟩

/-- Another name for the class. -/
def enclosedNames : SymbolMap := ⟨⟨[.ofOwners .class_ "A" "B"]⟩, .empty⟩

/-- The code has a table of this kind at the place, with one variable, of which this is told. -/
def TellsVariable (file : ClassFile) (place : Nat) (name text : String) : Prop :=
  ∃ body parts table record, file.bodyAt (.member .method 0) codeName = some body ∧
    code.parse codeName body = .ok parts ∧ parts.attributes[place]? = some table ∧
    file.pool.utf8 table.name = .ok name ∧
    localVariables.parse localVariableTableName table.body = .ok [record] ∧
    file.pool.utf8 record.descriptor = .ok text

/-- The only variable of a table is told by its new text. -/
private theorem reads_of_nestedRenamed {after : ClassFile} {item item' : Attribute} {record : LocalVariable}
    {name text renamed : String} {rename : String → Except Fault String}
    (nested : NestedRenamed enclosedNames enclosed.pool after.pool item item')
    (named : enclosed.pool.utf8 item.name = .ok name)
    (isTable : tableRename? enclosedNames name = some rename)
    (parsed : localVariables.parse localVariableTableName item.body = .ok [record])
    (read : enclosed.pool.utf8 record.descriptor = .ok text) (renames : rename text = .ok renamed) :
    ∃ record', localVariables.parse localVariableTableName item'.body = .ok [record'] ∧
      after.pool.utf8 record'.descriptor = .ok renamed := by
  obtain ⟨records, records', parsed', later, each⟩ := nested.table name rename named isTable
  obtain rfl := Except.ok.inj (parsed'.symm.trans parsed)
  obtain ⟨record', _, variable_, none_, rfl⟩ := List.forall₂_cons_left_iff.mp each
  obtain rfl := List.forall₂_nil_left_iff.mp none_
  obtain ⟨_, again, reads⟩ := variable_.descriptor text read
  obtain rfl := Except.ok.inj (again.symm.trans renames)
  exact ⟨record', later, reads⟩

private theorem tells_of_codeRenamed {after : ClassFile} {body : Bytes}
    (coded : after.bodyAt (.member .method 0) codeName = some body)
    (renamed : CodeRenamed enclosedNames enclosed.pool after.pool enclosedCode body)
    (named : after.pool.utf8 8 = .ok "LocalVariableTable")
    (named' : after.pool.utf8 14 = .ok "LocalVariableTypeTable") :
    TellsVariable after 0 "LocalVariableTable" "LB;" ∧
      TellsVariable after 1 "LocalVariableTypeTable" "LB<LB;>;" := by
  obtain ⟨parts, nested, parsed, parsed', items⟩ := renamed
  have known : code.parse codeName enclosedCode = .ok ⟨0, 1, [0xB1], [],
      [⟨8, [0, 1, 0, 0, 0, 1, 0, 9, 0, 4, 0, 0]⟩, ⟨14, [0, 1, 0, 0, 0, 1, 0, 9, 0, 15, 0, 0]⟩]⟩ := by
    decide +kernel
  obtain rfl := Except.ok.inj (parsed.symm.trans known)
  obtain ⟨_, _, first, rest, rfl⟩ := List.forall₂_cons_left_iff.mp items
  obtain ⟨_, _, second, none_, rfl⟩ := List.forall₂_cons_left_iff.mp rest
  obtain rfl := List.forall₂_nil_left_iff.mp none_
  have record : localVariables.parse localVariableTableName [0, 1, 0, 0, 0, 1, 0, 9, 0, 4, 0, 0] =
      .ok [⟨0, 1, 9, 4, 0⟩] := by decide +kernel
  have record' : localVariables.parse localVariableTableName [0, 1, 0, 0, 0, 1, 0, 9, 0, 15, 0, 0] =
      .ok [⟨0, 1, 9, 15, 0⟩] := by decide +kernel
  have renames : enclosedNames.renameDescriptor "LA;" = .ok "LB;" := by decide +kernel
  have renames' : enclosedNames.renameSignature "LA<LA;>;" = .ok "LB<LB;>;" := by decide +kernel
  have table : enclosed.pool.utf8 8 = .ok "LocalVariableTable" := by decide +kernel
  have table' : enclosed.pool.utf8 14 = .ok "LocalVariableTypeTable" := by decide +kernel
  obtain ⟨_, later, reads⟩ := reads_of_nestedRenamed first table rfl record (by decide +kernel) renames
  obtain ⟨_, later', reads'⟩ :=
    reads_of_nestedRenamed second table' rfl record' (by decide +kernel) renames'
  exact ⟨⟨body, _, _, _, coded, parsed', rfl, first.turns.name ▸ named, later, reads⟩,
    body, _, _, _, coded, parsed', rfl, second.turns.name ▸ named', later', reads'⟩

theorem remapClass_attributes_enclosed :
    enclosed.pool.Indexed ∧ ∃ after, Gives (remapClass enclosedNames) enclosed true after ∧
      (∃ body index, after.bodyAt .wholeClass signatureName = some body ∧
        signature.parse signatureName body = .ok index ∧ after.pool.utf8 index = .ok "LB;") ∧
      (∃ body, after.bodyAt (.member .method 0) codeName = some body ∧
        CodeRenamed enclosedNames enclosed.pool after.pool enclosedCode body) ∧
      TellsVariable after 0 "LocalVariableTable" "LB;" ∧
      TellsVariable after 1 "LocalVariableTypeTable" "LB<LB;>;" ∧
      ∃ body place, after.bodyAt .wholeClass enclosingMethodName = some body ∧
        enclosingMethod.parse enclosingMethodName body = .ok place ∧
        after.pool.className place.owner = .ok "O" ∧
        after.pool.nameAndType place.method = .ok ("m", "(LB;)V") := by
  have indexed : enclosed.pool.Indexed := by
    unfold ConstantPool.Indexed
    decide
  have remapped : Gives (remapClass enclosedNames) enclosed true
      (ran (remapClass enclosedNames) enclosed).2 := Prod.ext (by decide +kernel) rfl
  obtain ⟨signatures, codes, enclosing⟩ :=
    remapClass_attributes enclosedNames enclosed _ true indexed remapped
  obtain ⟨codeBody, coded, recoded⟩ := codes 0 enclosedCode (by decide +kernel)
  have tells := tells_of_codeRenamed coded recoded (by decide +kernel) (by decide +kernel)
  refine ⟨indexed, _, remapped, ?_, ⟨codeBody, coded, recoded⟩, tells.1, tells.2, ?_⟩
  · obtain ⟨body, turned, index, index', parsed, parsed', text⟩ :=
      signatures .wholeClass [0, 4] (by decide +kernel)
    obtain rfl : 4 = index := Except.ok.inj parsed
    obtain ⟨renamed, renames, reads⟩ := text "LA;" (by decide +kernel)
    have renames' : enclosedNames.renameSignature "LA;" = .ok "LB;" := by decide +kernel
    obtain rfl := Except.ok.inj (renames.symm.trans renames')
    exact ⟨body, index', turned, parsed', reads⟩
  · obtain ⟨owner, name, descriptor, newOwner, newSymbol, body, place, named, described, renames,
      symbol, turned, parsed, owned, encloses⟩ :=
      enclosing [0, 12, 0, 13] ⟨12, 13⟩ (by decide +kernel) (by decide +kernel) (by decide)
    have named' : enclosed.pool.className 12 = .ok "O" := by decide +kernel
    have described' : enclosed.pool.nameAndType 13 = .ok ("m", "(LA;)V") := by decide +kernel
    obtain rfl := Except.ok.inj (named.symm.trans named')
    obtain ⟨rfl, rfl⟩ := Prod.mk.inj (Except.ok.inj (described.symm.trans described'))
    have renames' : enclosedNames.renamedReference "O" = .ok "O" := by decide +kernel
    have symbol' : enclosedNames.renamedSymbol .method "O" "m" "(LA;)V" = .ok ("m", "(LB;)V") := by
      decide +kernel
    obtain rfl := Except.ok.inj (renames.symm.trans renames')
    obtain rfl := Except.ok.inj (symbol.symm.trans symbol')
    exact ⟨body, place, turned, parsed, owned, encloses⟩

/-- Remapping changes nothing but names and the bodies of the attributes that hold names, and of these
only what refers to names. If no plan can be made, nothing changes at all. -/
theorem remapClass_touches (symbols : SymbolMap) (before : ClassFile) (indexed : before.pool.Indexed) :
    (∀ changed after, Gives (remapClass symbols) before changed after →
      Touches Renamable before after) ∧
    ∀ fault, RenamePlan.ofClass symbols before = .error fault →
      ran (remapClass symbols) before = (.error fault, before) := by
  refine ⟨fun changed after remapped => ?_, fun fault failed => ?_⟩
  · obtain ⟨plan, middle, _, _, -, applied, resigned⟩ := remapClass_steps remapped
    have early := RenamePlan.apply_touches indexed applied
    have late := renameSignatures_touches (early.keeps.indexed indexed) resigned
    refine IsTrans.trans _ _ _ (early.weaken fun _ _ => .inr ∘ .inr) (late.weaken fun site name => ?_)
    rintro (isSignature | isCode)
    · exact .inl isSignature
    · exact .inr (.inl isCode)
  · have read : ran (ClassFile.read (RenamePlan.ofClass symbols)) before = (.error fault, before) := by
      rw [ClassFile.read, ran_mk, failed]
    rw [remapClass, ran_bind, read]

theorem remapClass_touches_enclosed :
    enclosed.pool.Indexed ∧ ∃ after, Gives (remapClass enclosedNames) enclosed true after ∧
      Touches Renamable enclosed after := by
  have indexed : enclosed.pool.Indexed := by
    unfold ConstantPool.Indexed
    decide
  have remapped : Gives (remapClass enclosedNames) enclosed true
      (ran (remapClass enclosedNames) enclosed).2 := Prod.ext (by decide +kernel) rfl
  exact ⟨indexed, _, remapped, (remapClass_touches enclosedNames enclosed indexed).1 _ _ remapped⟩

/-- A class `A` with an attribute whose name is in the slot behind the last one. -/
def unnamed : ClassFile :=
  ⟨0, 52, .ofEntries [.unusable, .utf8 "A", .classRef 1, .utf8 "LA;", .utf8 "LSignature;"], ⟨0⟩, 2, 0,
    [], [], [], [⟨5, [0, 3]⟩]⟩

def unnamedBytes : Bytes :=
  [0xCA, 0xFE, 0xBA, 0xBE, 0, 0, 0, 52, 0, 5, 1, 0, 1, 0x41, 7, 0, 1, 1, 0, 3, 0x4C, 0x41, 0x3B, 1, 0,
    11, 0x4C, 0x53, 0x69, 0x67, 0x6E, 0x61, 0x74, 0x75, 0x72, 0x65, 0x3B, 0, 0, 0, 2, 0, 0, 0, 0, 0, 0, 0,
    0, 0, 1, 0, 5, 0, 0, 0, 2, 0, 3]

/-- An attribute without a name becomes a signature if the slot of its name is filled with that word
while the class is renamed, and then it gets another body. -/
theorem remapClass_names_attribute :
    decode unnamedBytes = .ok unnamed ∧
      unnamed.pool.utf8 5 = .error (.badIndex 5 .usable) ∧ unnamed.attributes = [⟨5, [0, 3]⟩] ∧
      ∃ after, Gives (remapClass ⟨⟨[.ofOwners .class_ "A" signatureName]⟩, .empty⟩) unnamed true after ∧
        after.pool.utf8 5 = .ok signatureName ∧ after.attributes = [⟨5, [0, 4]⟩] := by
  refine ⟨by decide +kernel, by decide +kernel, rfl,
    (ran (remapClass ⟨⟨[.ofOwners .class_ "A" signatureName]⟩, .empty⟩) unnamed).2, ?_, ?_, ?_⟩
  · exact Prod.ext (by decide +kernel) rfl
  · decide +kernel
  · decide +kernel

end JarRemap
