import JarRemap.Proofs.Remap
import JarRemap.Proofs.Remap.CallSites

/-!
# What slots and members say after remapping

What a slot says is renamed as a whole: every name in it is looked up as it was before the class was
touched, whatever the slots that it refers to have come to say in the meantime.
-/

namespace JarRemap

open RenamePlan

namespace SymbolMap

def renamedReference (symbols : SymbolMap) (name : String) : Except Fault String :=
  (·.getD name) <$> symbols.renameReference name

theorem renamedReference_ok_iff (symbols : SymbolMap) (name new : String) :
    symbols.renamedReference name = .ok new ↔
      ∃ renamed, symbols.renameReference name = .ok renamed ∧ renamed.getD name = new := by
  rw [renamedReference]
  cases symbols.renameReference name <;> simp

/-- The new name and descriptor of a member. -/
def renamedSymbol (symbols : SymbolMap) (kind : MemberKind) (owner name descriptor : String) :
    Except Fault (String × String) :=
  (fun renamed => ((symbols.member? kind owner name descriptor).getD name, renamed)) <$>
    symbols.renameDescriptor descriptor

theorem renamedSymbol_ok_iff (symbols : SymbolMap) (kind : MemberKind)
    (owner name descriptor : String) (result : String × String) :
    symbols.renamedSymbol kind owner name descriptor = .ok result ↔
      (symbols.member? kind owner name descriptor).getD name = result.1 ∧
        symbols.renameDescriptor descriptor = .ok result.2 := by
  rw [renamedSymbol]
  obtain ⟨new, newDescriptor⟩ := result
  cases symbols.renameDescriptor descriptor <;> simp [Functor.map, Except.map]

end SymbolMap

/-- What references of a kind refer to. -/
inductive ReferenceKind.Refers : ReferenceKind → MemberKind → Prop
  | field : Refers .field .field
  | method : Refers .method .method
  | interfaceMethod : Refers .interfaceMethod .method

theorem ReferenceKind.refers_iff {kind : ReferenceKind} {memberKind : MemberKind} :
    kind.Refers memberKind ↔ RenamePlan.ReferenceKind.memberKind kind = memberKind := by
  constructor
  · rintro (_ | _ | _) <;> rfl
  · rintro rfl
    cases kind
    · exact .field
    · exact .method
    · exact .interfaceMethod

/-- What a slot of the class said, and what it has to say after the remapping. -/
inductive SymbolMap.RenamesMeaning (symbols : SymbolMap) (file : ClassFile) : Meaning → Meaning → Prop
  | class_ {name new : String} (renames : symbols.renamedReference name = .ok new) :
      RenamesMeaning symbols file (.class_ name) (.class_ new)
  | member {kind : ReferenceKind} {memberKind : MemberKind}
      {owner name descriptor newOwner newDescriptor : String} (refers : kind.Refers memberKind)
      (owned : symbols.renamedReference owner = .ok newOwner)
      (described : symbols.renameDescriptor descriptor = .ok newDescriptor) :
      RenamesMeaning symbols file (.member ⟨kind, owner, name, descriptor⟩)
        (.member ⟨kind, newOwner, (symbols.member? memberKind owner name descriptor).getD name,
          newDescriptor⟩)
  | dynamic {bootstrap : Index} {name descriptor newDescriptor : String}
      (described : symbols.renameDescriptor descriptor = .ok newDescriptor) :
      RenamesMeaning symbols file (.dynamic bootstrap name descriptor)
        (.dynamic bootstrap name newDescriptor)
  | callSite {bootstrap : Index} {name descriptor newName newDescriptor : String}
      (names : symbols.NamesSite file bootstrap name descriptor newName)
      (described : symbols.renameDescriptor descriptor = .ok newDescriptor) :
      RenamesMeaning symbols file (.callSite bootstrap name descriptor)
        (.callSite bootstrap newName newDescriptor)
  | methodType {descriptor newDescriptor : String}
      (described : symbols.renameDescriptor descriptor = .ok newDescriptor) :
      RenamesMeaning symbols file (.methodType descriptor) (.methodType newDescriptor)
  | other (constant : Constant) : RenamesMeaning symbols file (.other constant) (.other constant)

/-- There is one thing only that the slot may say. -/
theorem SymbolMap.RenamesMeaning.unique {symbols : SymbolMap} {file : ClassFile}
    {old new again : Meaning} (renames : symbols.RenamesMeaning file old new)
    (renames' : symbols.RenamesMeaning file old again) : new = again := by
  cases renames with
  | class_ renames =>
    cases renames' with
    | class_ renames' => rw [Except.ok.inj (renames.symm.trans renames')]
  | member refers owned described =>
    cases renames' with
    | member refers' owned' described' =>
      rw [Except.ok.inj (owned.symm.trans owned'), Except.ok.inj (described.symm.trans described'),
        (ReferenceKind.refers_iff.mp refers).symm.trans (ReferenceKind.refers_iff.mp refers')]
  | dynamic described =>
    cases renames' with
    | dynamic described' => rw [Except.ok.inj (described.symm.trans described')]
  | callSite names described =>
    cases renames' with
    | callSite names' described' =>
      rw [names.unique names', Except.ok.inj (described.symm.trans described')]
  | methodType described =>
    cases renames' with
    | methodType described' => rw [Except.ok.inj (described.symm.trans described')]
  | other =>
    cases renames'
    rfl

namespace RenamePlan

theorem changed_getD (old new : String × String) : (changed old new).getD old = new := by
  rw [changed]
  split
  next same => exact same.symm
  · rfl

theorem renamedSymbol_of_member {symbols : SymbolMap} {kind : MemberKind}
    {owner name descriptor : String} {renamed : Option (String × String)}
    (looked : renamedMember symbols kind owner name descriptor = .ok renamed) :
    symbols.renamedSymbol kind owner name descriptor = .ok (renamed.getD (name, descriptor)) := by
  simp only [renamedMember, bind_ok_iff, pure_ok_iff] at looked
  obtain ⟨newDescriptor, described, rfl⟩ := looked
  rw [SymbolMap.renamedSymbol, described, changed_getD]
  rfl

/-- The symbol of a reference is looked up by all that the reference says. -/
theorem renamedConstant_reference_ok_iff {symbols : SymbolMap} {pool : ConstantPool}
    {bootstrap : List Attribute.BootstrapMethod} {index place slot : Index} {constant : Constant}
    {kind : ReferenceKind} {planned : Option PoolRename}
    (here : pool.entries[index.toNat]? = some constant)
    (parts : constant.reference? = some (kind, place, slot)) :
    renamedConstant symbols pool bootstrap index constant = .ok planned ↔
      ∃ found renamed, pool.memberOf kind place slot = .ok found ∧
        renamedMember symbols (ReferenceKind.memberKind found.kind) found.owner found.name
          found.descriptor = .ok renamed ∧
        renamed.map (fun (name, descriptor) => .symbol name descriptor) = planned := by
  have looks : renamedConstant symbols pool bootstrap index constant = (do
      let found ← pool.memberReference index
      let renamed ← renamedMember symbols (ReferenceKind.memberKind found.kind) found.owner
        found.name found.descriptor
      return renamed.map fun (name, descriptor) => .symbol name descriptor) := by
    cases constant <;> simp [Constant.reference?] at parts <;> rfl
  rw [looks, ConstantPool.memberReference_of_entry here parts]
  simp only [bind_ok_iff, pure_ok_iff, exists_and_left]

/-- A rename for another descriptor only is one for another name and descriptor. -/
private theorem unless_same (name old new : String) :
    (if new = old then none else some (PoolRename.symbol name new)) =
      (changed (name, old) (name, new)).map fun (name, descriptor) => .symbol name descriptor := by
  simp only [changed, Prod.mk.injEq, true_and]
  split <;> rfl

/-- A constant whose symbol was to be replaced refers to the new symbol. -/
private theorem settled_symbol {old new : ConstantPool} {constant current : Constant}
    {renamed : Option (String × String)} {slot : Index} {symbol : String × String}
    (keeps : ConstantPool.Keeps old new) (own : ConstantPool.withSymbol slot constant = some constant)
    (here : old.nameAndType slot = .ok symbol)
    (settled : Settled (renamed.map fun (name, descriptor) => .symbol name descriptor) new
      constant current) :
    ∃ place, ConstantPool.withSymbol place constant = some current ∧
      new.nameAndType place = .ok (renamed.getD symbol) := by
  cases renamed with
  | none =>
    obtain rfl : current = constant := settled
    exact ⟨slot, own, keeps.nameAndType here⟩
  | some renamed => exact settled

end RenamePlan

namespace RenamePlan.Carried

variable {symbols : SymbolMap} {bootstrap : List Attribute.BootstrapMethod} {owner : String}
  {old new : ClassFile}

/-- Every class has the name that its old name is renamed to. -/
theorem className (carried : Carried symbols bootstrap owner old new) {index : Index} {name : String}
    (named : old.pool.className index = .ok name) :
    ∃ renamed, symbols.renamedReference name = .ok renamed ∧
      new.pool.className index = .ok renamed := by
  obtain ⟨text, here⟩ := ConstantPool.entry_of_className named
  obtain ⟨planned, current, looked, there, settled⟩ := carried.slots here
  simp only [renamedConstant, named, bind_ok_iff, pure_ok_iff] at looked
  obtain ⟨_, same, renamed, found, rfl⟩ := looked
  obtain rfl := Except.ok.inj same
  refine ⟨renamed.getD name, by rw [SymbolMap.renamedReference, found]; rfl, ?_⟩
  -- A class without another name keeps its text, and any other one is pointed at a text with the
  -- new one.
  cases renamed with
  | none =>
    obtain rfl : current = .classRef text := settled
    rw [ConstantPool.className_of_entry here] at named
    rw [ConstantPool.className_of_entry there]
    exact carried.keeps.utf8 named
  | some renamed =>
    obtain ⟨-, place, rfl, reads⟩ := settled
    rw [ConstantPool.className_of_entry there]
    exact reads

/-- Every reference to a member is to what its owner, name and descriptor were renamed to. -/
private theorem reference (carried : Carried symbols bootstrap owner old new) {index place slot : Index}
    {kind : ReferenceKind} {constant : Constant}
    (here : old.pool.entries[index.toNat]? = some constant)
    (parts : constant.reference? = some (kind, place, slot)) :
    ∃ found newOwner symbol, old.pool.memberReference index = .ok found ∧
      symbols.renamedReference found.owner = .ok newOwner ∧
      symbols.renamedSymbol (ReferenceKind.memberKind found.kind) found.owner found.name
        found.descriptor = .ok symbol ∧
      new.pool.memberReference index = .ok ⟨found.kind, newOwner, symbol.1, symbol.2⟩ := by
  obtain ⟨planned, current, looked, there, settled⟩ := carried.slots here
  obtain ⟨⟨kind, className, name, descriptor⟩, renamed, read, asked, rfl⟩ :=
    (renamedConstant_reference_ok_iff here parts).mp looked
  obtain ⟨rfl, named, described⟩ := (ConstantPool.memberOf_ok_iff _ _ _ _ _).mp read
  -- The owner is renamed with its own class entry, and the symbol with the entry of the reference.
  obtain ⟨newOwner, renames, owned⟩ := carried.className named
  obtain ⟨newSlot, pointed, symbol⟩ :=
    settled_symbol carried.keeps (ConstantPool.withSymbol_own parts) described settled
  have answer := renamedSymbol_of_member asked
  generalize renamed.getD (name, descriptor) = result at symbol answer
  have newParts := ConstantPool.reference?_of_withSymbol parts pointed
  refine ⟨_, newOwner, result, ?_, renames, answer, ?_⟩
  · rw [ConstantPool.memberReference_of_entry here parts, read]
  · rw [ConstantPool.memberReference_of_entry there newParts]
    exact (ConstantPool.memberOf_ok_iff _ _ _ _ _).mpr ⟨rfl, owned, symbol⟩

theorem memberReference (carried : Carried symbols bootstrap owner old new) {index : Index}
    {reference : MemberReference} (read : old.pool.memberReference index = .ok reference) :
    ∃ newOwner symbol, symbols.renamedReference reference.owner = .ok newOwner ∧
      symbols.renamedSymbol (ReferenceKind.memberKind reference.kind) reference.owner reference.name
        reference.descriptor = .ok symbol ∧
      new.pool.memberReference index = .ok ⟨reference.kind, newOwner, symbol.1, symbol.2⟩ := by
  obtain ⟨constant, kind, place, slot, here, parts⟩ := ConstantPool.entry_of_memberReference read
  obtain ⟨found, newOwner, symbol, read', owned, answer, reads⟩ := carried.reference here parts
  obtain rfl := Except.ok.inj (read.symm.trans read')
  exact ⟨newOwner, symbol, owned, answer, reads⟩

/-- What a reference to a member said is renamed. -/
private theorem renamesMember (carried : Carried symbols bootstrap owner old new)
    {index place slot : Index} {kind : ReferenceKind} {constant : Constant}
    (here : old.pool.entries[index.toNat]? = some constant)
    (parts : constant.reference? = some (kind, place, slot)) :
    ∃ meant means, old.pool.meaning index = .ok meant ∧ new.pool.meaning index = .ok means ∧
      symbols.RenamesMeaning old meant means := by
  obtain ⟨found, newOwner, symbol, read, owned, answer, reads⟩ := carried.reference here parts
  obtain ⟨named, described⟩ := (SymbolMap.renamedSymbol_ok_iff _ _ _ _ _ _).mp answer
  rw [← named] at reads
  exact ⟨.member found, _, (ConstantPool.meaning_member_iff _ _ _).mpr read,
    (ConstantPool.meaning_member_iff _ _ _).mpr reads,
    .member (ReferenceKind.refers_iff.mpr rfl) owned described⟩

/-- Every slot says what it said before with new names. -/
theorem meaning (carried : Carried symbols bootstrap owner old new)
    (booted : ofAttribute old Attribute.bootstrapMethodsName Attribute.bootstrapMethods [] .ok =
      .ok bootstrap) {index : Index} (within : index.toNat < old.pool.entries.size) :
    ∃ meant means, old.pool.meaning index = .ok meant ∧ new.pool.meaning index = .ok means ∧
      symbols.RenamesMeaning old meant means := by
  have here := Array.getElem?_eq_getElem within
  generalize old.pool.entries[index.toNat] = constant at here
  obtain ⟨planned, current, looked, there, settled⟩ := carried.slots here
  -- One case for each kind of constant. Those at the end are not renamed and say what they are.
  cases constant with
  | classRef text =>
    simp only [renamedConstant, bind_ok_iff] at looked
    obtain ⟨name, named, -⟩ := looked
    obtain ⟨renamed, renames, reads⟩ := carried.className named
    exact ⟨_, _, ConstantPool.meaning_class named, ConstantPool.meaning_class reads, .class_ renames⟩
  | fieldRef place slot => exact carried.renamesMember here rfl
  | methodRef place slot => exact carried.renamesMember here rfl
  | interfaceMethodRef place slot => exact carried.renamesMember here rfl
  | dynamic method slot =>
    simp only [renamedConstant, bind_ok_iff, pure_ok_iff] at looked
    obtain ⟨⟨name, descriptor⟩, described, renamed, renames, rfl⟩ := looked
    rw [unless_same] at settled
    obtain ⟨place, pointed, symbol⟩ := settled_symbol carried.keeps rfl described settled
    obtain rfl := Option.some.inj pointed
    rw [changed_getD] at symbol
    exact ⟨_, _, ConstantPool.meaning_dynamic here described, ConstantPool.meaning_dynamic there symbol,
      .dynamic renames⟩
  | invokeDynamic method slot =>
    simp only [renamedConstant, bind_ok_iff, pure_ok_iff] at looked
    obtain ⟨⟨name, descriptor⟩, described, renamed, renames, rfl⟩ := looked
    obtain ⟨place, pointed, symbol⟩ := settled_symbol carried.keeps rfl described settled
    obtain rfl := Option.some.inj pointed
    rw [changed_getD] at symbol
    exact ⟨_, _, ConstantPool.meaning_callSite here described,
      ConstantPool.meaning_callSite there symbol, .callSite (renamedCallSite_names booted) renames⟩
  | methodType text =>
    simp only [renamedConstant, bind_ok_iff, pure_ok_iff] at looked
    obtain ⟨descriptor, described, renamed, renames, rfl⟩ := looked
    refine ⟨_, .methodType renamed, ConstantPool.meaning_methodType here described, ?_,
      .methodType renames⟩
    split at settled
    next same =>
      obtain rfl : current = _ := settled
      exact ConstantPool.meaning_methodType there (same ▸ carried.keeps.utf8 described)
    · obtain ⟨-, place, rfl, reads⟩ := settled
      exact ConstantPool.meaning_methodType there reads
  | _ =>
    obtain rfl := Except.ok.inj looked
    obtain rfl : current = _ := settled
    exact ⟨_, _, by rw [ConstantPool.meaning, here], by rw [ConstantPool.meaning, there], .other _⟩

/-- Every member has the name and the descriptor that its old ones are renamed to. -/
theorem member (carried : Carried symbols bootstrap owner old new) {kind : MemberKind}
    {position : Nat} {member : Member} (here : (old.members kind)[position]? = some member) :
    ∃ symbol renamed member', old.symbol member = .ok symbol ∧
      symbols.renamedSymbol kind owner symbol.1 symbol.2 = .ok renamed ∧
      (new.members kind)[position]? = some member' ∧ new.symbol member' = .ok renamed := by
  have slots : (old.symbolSlots kind)[position]? = some (member.name, member.descriptor) := by
    rw [ClassFile.symbolSlots, List.getElem?_map, here]
    rfl
  obtain ⟨name, descriptor, renamed, slots', named, described, looked, there, names, describes⟩ :=
    carried.members slots
  rw [ClassFile.symbolSlots, List.getElem?_map, Option.map_eq_some_iff] at there
  obtain ⟨member', there, rfl⟩ := there
  refine ⟨(name, descriptor), renamed.getD (name, descriptor), member', ?_,
    renamedSymbol_of_member looked, there, ?_⟩
  · simp only [ClassFile.symbol, named, described]
    rfl
  · simp only [ClassFile.symbol, names, describes]
    rfl

theorem members_length (carried : Carried symbols bootstrap owner old new) (kind : MemberKind) :
    (new.members kind).length = (old.members kind).length := by
  simpa [ClassFile.symbolSlots] using carried.count kind

end RenamePlan.Carried

/-- Remapping a class gives every slot of its pool and every one of its members the new names for
what they said before, by the old names of the classes, by the old descriptors and by the bootstrap
methods of the class as it was. -/
theorem remapClass_renames (symbols : SymbolMap) (before after : ClassFile) (changed : Bool)
    (indexed : before.pool.Indexed)
    (remapped : Gives (Remap.remapClass symbols) before changed after) :
    ∃ owner, before.name = .ok owner ∧
      (∀ index : Index, index.toNat < before.pool.entries.size →
        ∃ old new, before.pool.meaning index = .ok old ∧ after.pool.meaning index = .ok new ∧
          symbols.RenamesMeaning before old new) ∧
      ∀ kind, (after.members kind).length = (before.members kind).length ∧
        ∀ (position : Nat) old, (before.members kind)[position]? = some old →
          ∃ symbol renamed new, before.symbol old = .ok symbol ∧
            symbols.renamedSymbol kind owner symbol.1 symbol.2 = .ok renamed ∧
            (after.members kind)[position]? = some new ∧ after.symbol new = .ok renamed := by
  obtain ⟨owner, bootstrap, named, booted, carried⟩ := Remap.remapClass_carried indexed remapped
  exact ⟨owner, named, fun index within => carried.meaning booted within,
    fun kind => ⟨carried.members_length kind, fun position old here => carried.member here⟩⟩

/-- A class `A` with a field `x` of its own type and a method `m`, that refers to the field. The first of
its two call sites implements `m` of `I`, whose erased descriptor the bootstrap method tells. For the
other one there is no bootstrap method. -/
def lambdas : ClassFile :=
  ⟨0, 52, .ofEntries [.unusable, .utf8 "A", .classRef 1, .utf8 "x", .utf8 "LA;", .nameAndType 3 4,
    .fieldRef 2 5, .utf8 "m", .utf8 "()LI;", .nameAndType 7 8, .invokeDynamic 0 9, .utf8 "(LA;)V",
    .methodType 11, .utf8 "BootstrapMethods", .utf8 "k", .nameAndType 14 8, .invokeDynamic 1 15], ⟨0⟩,
    2, 0, [], [⟨⟨0⟩, 3, 4, []⟩], [⟨⟨0⟩, 7, 11, []⟩], [⟨13, [0, 1, 0, 0, 0, 1, 0, 12]⟩]⟩

/-- New names for the classes, the field, two methods `m` of `I` and its only method `k`. -/
def lambdaNames : SymbolMap :=
  ⟨⟨[.ofOwners .class_ "A" "B", .ofOwners .class_ "I" "J",
    ⟨.field, "A", "B", some "x", some "y", none, none⟩,
    ⟨.method, "I", "J", some "m", some "n", some "(LA;)V", some "(LB;)V"⟩,
    ⟨.method, "I", "J", some "m", some "z", some "()V", some "()V"⟩,
    ⟨.method, "I", "J", some "k", some "l", some "()V", some "()V"⟩]⟩, .empty⟩

theorem remapClass_renames_lambdas :
    lambdas.pool.Indexed ∧ ∃ after, Gives (Remap.remapClass lambdaNames) lambdas true after ∧
      after.pool.meaning 6 = .ok (.member ⟨.field, "B", "y", "LB;"⟩) ∧
      after.pool.meaning 10 = .ok (.callSite 0 "n" "()LJ;") ∧
      after.pool.meaning 12 = .ok (.methodType "(LB;)V") ∧
      after.pool.meaning 16 = .ok (.callSite 1 "l" "()LJ;") ∧
      ∃ method, (after.members .method)[0]? = some method ∧
        after.symbol method = .ok ("m", "(LB;)V") := by
  have indexed : lambdas.pool.Indexed := by
    unfold ConstantPool.Indexed
    decide
  have remapped : Gives (Remap.remapClass lambdaNames) lambdas true
      (ran (Remap.remapClass lambdaNames) lambdas).2 := Prod.ext (by decide +kernel) rfl
  obtain ⟨owner, named, slots, members⟩ := remapClass_renames lambdaNames lambdas _ true indexed remapped
  have slot {index : Index} {old new : Meaning} (within : index.toNat < lambdas.pool.entries.size)
      (before : lambdas.pool.meaning index = .ok old)
      (renames : lambdaNames.RenamesMeaning lambdas old new) :
      (ran (Remap.remapClass lambdaNames) lambdas).2.pool.meaning index = .ok new := by
    obtain ⟨_, _, meant, means, renames'⟩ := slots index within
    obtain rfl := Except.ok.inj (meant.symm.trans before)
    rw [means, renames'.unique renames]
  -- The site makes an object of type `I`, and its bootstrap method says what `m` takes.
  have erased : lambdaNames.NamesSite lambdas 0 "m" "()LI;" "n" := by
    have answer : (lambdaNames.callSite? "I" "m" (some "(LA;)V")).getD "m" = "n" := by decide +kernel
    rw [← answer]
    exact .erased ⟨['('], by decide, by decide⟩
      ⟨[0, 1, 0, 0, 0, 1, 0, 12], [⟨0, [12]⟩], ⟨0, [12]⟩, 12, by decide +kernel, by decide +kernel, rfl,
        rfl, by decide +kernel⟩
  have byName : lambdaNames.NamesSite lambdas 1 "k" "()LI;" "l" := by
    have answer : (lambdaNames.callSite? "I" "k" none).getD "k" = "l" := by decide +kernel
    rw [← answer]
    refine .byName ⟨['('], by decide, by decide⟩ ?_
    rintro descriptor ⟨body, methods, method, _, there, parsed, here, -⟩
    have there' : lambdas.bodyAt .wholeClass Attribute.bootstrapMethodsName =
        some [0, 1, 0, 0, 0, 1, 0, 12] := by decide +kernel
    have parsed' : Attribute.bootstrapMethods.parse Attribute.bootstrapMethodsName
        [0, 1, 0, 0, 0, 1, 0, 12] = .ok [⟨0, [12]⟩] := by decide +kernel
    obtain rfl := Option.some.inj (there.symm.trans there')
    obtain rfl := Except.ok.inj (parsed.symm.trans parsed')
    cases here
  have field : lambdaNames.RenamesMeaning lambdas (.member ⟨.field, "A", "x", "LA;"⟩)
      (.member ⟨.field, "B", "y", "LB;"⟩) := by
    have answer : (lambdaNames.member? .field "A" "x" "LA;").getD "x" = "y" := by decide +kernel
    rw [← answer]
    exact .member .field (by decide +kernel) (by decide +kernel)
  have type : lambdaNames.RenamesMeaning lambdas (.methodType "(LA;)V") (.methodType "(LB;)V") :=
    .methodType (by decide +kernel)
  refine ⟨indexed, _, remapped, slot (by decide) (by decide +kernel) field,
    slot (by decide) (by decide +kernel) (.callSite erased (by decide +kernel)),
    slot (by decide) (by decide +kernel) type,
    slot (by decide) (by decide +kernel) (.callSite byName (by decide +kernel)), ?_⟩
  have named' : lambdas.name = .ok "A" := by decide +kernel
  obtain rfl := Except.ok.inj (named.symm.trans named')
  obtain ⟨symbol, renamed, method, said, renames, there, reads⟩ := (members .method).2 0 _ rfl
  have said' : lambdas.symbol ⟨⟨0⟩, 7, 11, []⟩ = .ok ("m", "(LA;)V") := by decide +kernel
  obtain rfl := Except.ok.inj (said.symm.trans said')
  have renames' : lambdaNames.renamedSymbol .method "A" "m" "(LA;)V" = .ok ("m", "(LB;)V") := by
    decide +kernel
  obtain rfl := Except.ok.inj (renames.symm.trans renames')
  exact ⟨method, there, reads⟩

end JarRemap
