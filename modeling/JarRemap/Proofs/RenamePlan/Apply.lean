import JarRemap.Proofs.ClassFile.Frame
import JarRemap.Proofs.ConstantPool.Rename
import JarRemap.Proofs.RenamePlan
import JarRemap.RenamePlan.Apply

/-!
# What carrying out a plan does

Each slot and each member has at most one place in the plan, and the steps for all other places leave
it alone. So it ends up as its own step left it, or as it was if there is none.
-/

namespace JarRemap.RenamePlan

open ClassFile ConstantPool

/-! ## Slots -/

/-- One of the three passes over the plan, which carries out the renames that it selects. -/
def pass (selected : PoolRename → Bool) (item : Index × PoolRename) : ClassEdit Unit :=
  if selected item.2 then inPool (item.2.edit item.1) else pure ()

def isClass : PoolRename → Bool
  | .class_ _ => true
  | _ => false

def isSymbol : PoolRename → Bool
  | .symbol .. => true
  | _ => false

def isMethodType : PoolRename → Bool
  | .methodType _ => true
  | _ => false

theorem renameClasses_eq (plan : RenamePlan) : plan.renameClasses = plan.pool.forM (pass isClass) :=
  congrArg plan.pool.forM (funext fun (_, rename) => by cases rename <;> rfl)

theorem renameSymbols_eq (plan : RenamePlan) : plan.renameSymbols = plan.pool.forM (pass isSymbol) :=
  congrArg plan.pool.forM (funext fun (_, rename) => by cases rename <;> rfl)

theorem retypeMethodTypes_eq (plan : RenamePlan) :
    plan.retypeMethodTypes = plan.pool.forM (pass isMethodType) :=
  congrArg plan.pool.forM (funext fun (_, rename) => by cases rename <;> rfl)

section

variable {selected : PoolRename → Bool} {items : List (Index × PoolRename)} {index : Index}

private theorem moves_pass_other {item : Index × PoolRename}
    (other : index ≠ item.1 ∨ selected item.2 = false) :
    Moves (InPool (Leaves index)) (pass selected item) := by
  rw [pass]
  split
  next carried =>
    have different : index ≠ item.1 := other.resolve_right (by simp [carried])
    exact moves_inPool (item.2.moves_edit_leaves different)
  · exact moves_pure _

private theorem moves_pass_keeps (item : Index × PoolRename) :
    Moves (InPool Keeps) (pass selected item) := by
  rw [pass]
  split
  · exact moves_inPool (item.2.moves_edit_keeps item.1)
  · exact moves_pure _

private theorem moves_passes_keeps : Moves (InPool Keeps) (items.forM (pass selected)) :=
  moves_forM fun item _ => moves_pass_keeps item

/-- A slot is left alone by a pass that carries out nothing for it. -/
private theorem moves_passes_other
    (skips : ∀ rename, (index, rename) ∈ items → selected rename = false) :
    Moves (InPool (Leaves index)) (items.forM (pass selected)) := by
  refine moves_forM fun item member => moves_pass_other ?_
  by_cases here : index = item.1
  · exact .inr (skips item.2 (here ▸ member))
  · exact .inl here

/-- A rename that a pass carries out is done after it. -/
private theorem pass_done {rename : PoolRename} {before after : ClassFile} {old : Constant}
    (ordered : items.Pairwise fun first second => first.1.toNat < second.1.toNat)
    (member : (index, rename) ∈ items) (carried : selected rename = true)
    (indexed : before.pool.Indexed) (here : before.pool.entries[index.toNat]? = some old)
    (gives : Gives (items.forM (pass selected)) before () after) :
    ∃ new, after.pool.entries[index.toNat]? = some new ∧ rename.Done after.pool old new := by
  have others : ∀ other : Index × PoolRename, other.1.toNat < index.toNat ∨ index.toNat < other.1.toNat →
      Moves (InPool (Leaves index)) (pass selected other) := by
    rintro other apart
    refine moves_pass_other (.inl ?_)
    rintro rfl
    omega
  obtain ⟨first, last, front, step, back⟩ := gives_forM_of_mem ordered member others gives
  rw [pass, if_pos carried] at step
  obtain ⟨pool, carries, rfl⟩ := (gives_inPool_iff _ _ _ _).mp step
  obtain ⟨new, there, done⟩ :=
    PoolRename.edit_done (front.pool.indexed indexed) (front.pool.entry here) carries
  exact ⟨new, back.pool.entry there, done.keeps back.pool.toKeeps⟩

end

private theorem moves_renameClasses {plan : RenamePlan} :
    Moves (InPool Keeps) plan.renameClasses := by
  rw [renameClasses_eq]
  exact moves_passes_keeps

private theorem moves_renameSymbols {plan : RenamePlan} :
    Moves (InPool Keeps) plan.renameSymbols := by
  rw [renameSymbols_eq]
  exact moves_passes_keeps

private theorem moves_retypeMethodTypes {plan : RenamePlan} :
    Moves (InPool Keeps) plan.retypeMethodTypes := by
  rw [retypeMethodTypes_eq]
  exact moves_passes_keeps

/-- What became of a constant, given what was planned for it. -/
def Settled (planned : Option PoolRename) (pool : ConstantPool) (old new : Constant) : Prop :=
  match planned with
  | none => new = old
  | some rename => rename.Done pool old new

theorem Settled.keeps {planned : Option PoolRename} {pool later : ConstantPool} {old new : Constant}
    (settled : Settled planned pool old new) (keeps : Keeps pool later) :
    Settled planned later old new := by
  cases planned with
  | none => exact settled
  | some rename => exact PoolRename.Done.keeps settled keeps

section

variable {plan : RenamePlan} {index : Index} {planned : Option PoolRename} {old : Constant}

/-- A pass settles what it selects, and keeps settled what passes before it selected. -/
private theorem pass_settles {done selected : PoolRename → Bool} {before after : ClassFile}
    {current : Constant}
    (ordered : plan.pool.Pairwise fun first second => first.1.toNat < second.1.toNat)
    (exactly : ∀ rename, planned = some rename ↔ (index, rename) ∈ plan.pool)
    (apart : ∀ rename, done rename = true → selected rename = false)
    (indexed : before.pool.Indexed) (here : before.pool.entries[index.toNat]? = some current)
    (settled : Settled (planned.filter done) before.pool old current)
    (gives : Gives (plan.pool.forM (pass selected)) before () after) :
    ∃ new, after.pool.entries[index.toNat]? = some new ∧
      Settled (planned.filter fun rename => done rename || selected rename) after.pool old new := by
  have keeps : InPool Keeps before after := gives.moved moves_passes_keeps
  by_cases carried : ∃ rename, planned = some rename ∧ selected rename = true
  · obtain ⟨rename, rfl, carried⟩ := carried
    -- The rename for this slot is in the plan once, so no pass before this one carried it out.
    have waiting : done rename = false := by
      cases first : done rename with
      | false => rfl
      | true => simp [apart rename first] at carried
    have unsettled : (some rename).filter done = none := by simp [Option.filter, waiting]
    have chosen : (some rename).filter (fun rename => done rename || selected rename) = some rename := by
      simp [Option.filter, carried]
    rw [unsettled] at settled
    obtain rfl : current = old := settled
    rw [chosen]
    exact pass_done ordered ((exactly rename).mp rfl) carried indexed here gives
  · -- Nothing is selected for this slot, which may still have been settled before.
    have skips : ∀ rename, (index, rename) ∈ plan.pool → selected rename = false := fun rename member =>
      Bool.eq_false_iff.mpr fun chosen => carried ⟨rename, (exactly rename).mpr member, chosen⟩
    have left : InPool (Leaves index) before after := gives.moved (moves_passes_other skips)
    refine ⟨current, left.pool.entry here, ?_⟩
    have same : (planned.filter fun rename => done rename || selected rename) =
        planned.filter done := by
      cases planned with
      | none => rfl
      | some rename =>
        have skipped := skips rename ((exactly rename).mp rfl)
        simp [Option.filter, skipped]
    rw [same]
    exact settled.keeps keeps.pool

/-- After the three passes every slot has what was planned for it. -/
private theorem slot_settled {before first second after : ClassFile}
    (ordered : plan.pool.Pairwise fun first second => first.1.toNat < second.1.toNat)
    (exactly : ∀ rename, planned = some rename ↔ (index, rename) ∈ plan.pool)
    (indexed : before.pool.Indexed) (here : before.pool.entries[index.toNat]? = some old)
    (classes : Gives plan.renameClasses before () first)
    (symbols : Gives plan.renameSymbols first () second)
    (types : Gives plan.retypeMethodTypes second () after) :
    ∃ new, after.pool.entries[index.toNat]? = some new ∧ Settled planned after.pool old new := by
  have keeps : InPool Keeps before first := classes.moved moves_renameClasses
  have keeps' : InPool Keeps first second := symbols.moved moves_renameSymbols
  rw [renameClasses_eq] at classes
  rw [renameSymbols_eq] at symbols
  rw [retypeMethodTypes_eq] at types
  have room := keeps.pool.indexed indexed
  -- Before the first pass nothing is done, and after the third every kind of rename is.
  have nothing : Settled (planned.filter fun _ => false) before.pool old old := by
    cases planned <;> exact rfl
  obtain ⟨renamed, here, settled⟩ :=
    pass_settles ordered exactly (fun _ never => by cases never) indexed here nothing classes
  obtain ⟨moved, here, settled⟩ := pass_settles ordered exactly
    (fun rename => by cases rename <;> simp [isClass, isSymbol]) room here settled symbols
  obtain ⟨new, there, settled⟩ := pass_settles ordered exactly
    (fun rename => by cases rename <;> simp [isClass, isSymbol, isMethodType])
    (keeps'.pool.indexed room) here settled types
  have all : (planned.filter fun rename =>
      (false || isClass rename || isSymbol rename) || isMethodType rename) = planned := by
    rcases planned with _ | (_ | _ | _) <;> rfl
  rw [all] at settled
  exact ⟨new, there, settled⟩

end

/-! ## Members -/

section

variable {plan : RenamePlan} {kind : MemberKind} {position : Nat}

/-- A member that the plan has no place for keeps its name and descriptor. -/
private theorem moves_renameMembers_other
    (skips : ∀ rename ∈ plan.members, rename.kind ≠ kind ∨ rename.position ≠ position) :
    Moves (SameMember kind position) plan.renameMembers :=
  moves_forM fun rename member => moves_setMemberSymbol (skips rename member) _ _

private theorem moves_renameMembers : Moves SameClass plan.renameMembers :=
  moves_forM fun _ _ => moves_setMemberSymbol_class _ _ _ _

/-- A member that the plan has a new name for has this name. -/
private theorem member_renamed {rename : MemberRename} {before after : ClassFile} {old : Index × Index}
    (apart : plan.members.Pairwise fun first second =>
      first.kind ≠ second.kind ∨ first.position < second.position)
    (member : rename ∈ plan.members) (indexed : before.pool.Indexed)
    (here : (before.symbolSlots rename.kind)[rename.position]? = some old)
    (gives : Gives plan.renameMembers before () after) :
    ∃ slots, (after.symbolSlots rename.kind)[rename.position]? = some slots ∧
      after.pool.utf8 slots.1 = .ok rename.name ∧ after.pool.utf8 slots.2 = .ok rename.descriptor := by
  have others : ∀ other : MemberRename,
      (other.kind ≠ rename.kind ∨ other.position < rename.position) ∨
        (rename.kind ≠ other.kind ∨ rename.position < other.position) →
      Moves (SameMember rename.kind rename.position)
        (setMemberSymbol other.kind other.position other.name other.descriptor) := by
    intro other different
    refine moves_setMemberSymbol ?_ _ _
    rcases different with (kinds | before) | (kinds | behind)
    · exact .inl kinds
    · exact .inr (by omega)
    · exact .inl kinds.symm
    · exact .inr (by omega)
  obtain ⟨first, last, front, step, back⟩ := gives_forM_of_mem apart member others gives
  -- The members before and behind it are other ones, so only its own step counts.
  obtain ⟨within, -⟩ := List.getElem?_eq_some_iff.mp (front.slot.trans here)
  obtain ⟨name, descriptor, there, named, described⟩ :=
    setMemberSymbol_slot (front.pool.indexed indexed) within step
  exact ⟨(name, descriptor), back.slot.trans there, back.pool.utf8 named, back.pool.utf8 described⟩

end

/-! ## Attributes -/

theorem asks_withInnerName (records : List Attribute.InnerClass) (position : Nat)
    (name : String) : Asks (withInnerName records position name) := by
  intro related _
  rw [withInnerName]
  split
  · exact (moves_utf8Index name).bind fun _ => moves_pure _
  · exact moves_pure _

section

variable {related : ClassFile → ClassFile → Prop} [Decorating related]

private theorem moves_changeAttribute {name : String} {change : Bytes → ClassEdit Bytes}
    (moves : ∀ body, Moves related (change body)) : Moves related (changeAttribute name change) := by
  refine moves_get.bind fun file => ?_
  split
  · exact (moves _).bind fun changed =>
      moves_modify fun file => Decorating.attributes file .wholeClass _
  · exact moves_pure _

theorem moves_renameInners (plan : RenamePlan) : Moves related plan.renameInners := by
  rw [renameInners]
  split
  · exact moves_pure _
  · refine moves_changeAttribute fun body => (moves_lift _).bind fun records => ?_
    refine (Appending.appends fun appended _ => ?_).bind fun _ => moves_lift _
    exact moves_foldlM (fun _ _ => asks_withInnerName _ _ _ appended) _ _

theorem moves_renameEnclosing (plan : RenamePlan) : Moves related plan.renameEnclosing := by
  rw [renameEnclosing]
  split
  · exact moves_pure _
  · exact moves_changeAttribute fun _ =>
      (Appending.appends fun _ _ => moves_nameAndTypeIndex _ _).bind fun _ => moves_lift _

end

/-! ## The whole plan -/

/-- A class after a plan for it was carried out: every slot and every member has what was planned for
it, and everything else about its names is as it was. -/
structure Carried (symbols : SymbolMap) (bootstrap : List Attribute.BootstrapMethod) (owner : String)
    (old new : ClassFile) : Prop where
  keeps : Keeps old.pool new.pool
  thisClass : new.thisClass = old.thisClass
  superClass : new.superClass = old.superClass
  interfaces : new.interfaces = old.interfaces
  slots : ∀ {index constant}, old.pool.entries[UInt16.toNat index]? = some constant →
    ∃ planned current, renamedConstant symbols old.pool bootstrap index constant = .ok planned ∧
      new.pool.entries[index.toNat]? = some current ∧ Settled planned new.pool constant current
  members : ∀ {kind} {position : Nat} {slots : Index × Index},
    (old.symbolSlots kind)[position]? = some slots →
    ∃ name descriptor renamed, ∃ slots' : Index × Index, old.pool.utf8 slots.1 = .ok name ∧
      old.pool.utf8 slots.2 = .ok descriptor ∧
      renamedMember symbols kind owner name descriptor = .ok renamed ∧
      (new.symbolSlots kind)[position]? = some slots' ∧
      new.pool.utf8 slots'.1 = .ok (renamed.getD (name, descriptor)).1 ∧
      new.pool.utf8 slots'.2 = .ok (renamed.getD (name, descriptor)).2
  count : ∀ kind, (new.symbolSlots kind).length = (old.symbolSlots kind).length

theorem Carried.later {symbols : SymbolMap} {bootstrap : List Attribute.BootstrapMethod}
    {owner : String} {old new later : ClassFile} (carried : Carried symbols bootstrap owner old new)
    (same : SameNames new later) : Carried symbols bootstrap owner old later where
  keeps := IsTrans.trans _ _ _ carried.keeps same.pool.keeps
  thisClass := same.thisClass.trans carried.thisClass
  superClass := same.superClass.trans carried.superClass
  interfaces := same.interfaces.trans carried.interfaces
  slots here := by
    obtain ⟨planned, current, looked, there, settled⟩ := carried.slots here
    exact ⟨planned, current, looked, same.pool.entry _ _ there, settled.keeps same.pool.keeps⟩
  members here := by
    obtain ⟨name, descriptor, renamed, slots', named, described, looked, there, names, describes⟩ :=
      carried.members here
    exact ⟨name, descriptor, renamed, slots', named, described, looked,
      (same.symbolSlots _).symm ▸ there, same.pool.utf8 names, same.pool.utf8 describes⟩
  count kind := (same.count kind).trans (carried.count kind)

section

variable {symbols : SymbolMap} {file after : ClassFile} {plan : RenamePlan}

private theorem planned_iff {bootstrap : List Attribute.BootstrapMethod} {index : Index}
    {constant : Constant} {planned : Option PoolRename} (indexed : file.pool.Indexed)
    (slots : renamedConstants symbols file.pool bootstrap = .ok plan.pool)
    (here : file.pool.entries[index.toNat]? = some constant)
    (looked : renamedConstant symbols file.pool bootstrap index constant = .ok planned)
    (found : ∀ rename, planned = some rename → (index, rename) ∈ plan.pool) (rename : PoolRename) :
    planned = some rename ↔ (index, rename) ∈ plan.pool := by
  refine ⟨found rename, fun member => ?_⟩
  obtain ⟨other, there, looked'⟩ := slot_found_at indexed slots member
  obtain rfl := Option.some.inj (here.symm.trans there)
  exact Except.ok.inj (looked.symm.trans looked')

private theorem mem_members {fields methods : List MemberRename} {owner : String} {kind : MemberKind}
    (found : renamedMembers symbols file owner .field = .ok fields)
    (found' : renamedMembers symbols file owner .method = .ok methods) :
    ∃ own, renamedMembers symbols file owner kind = .ok own ∧
      (∀ rename ∈ own, rename ∈ fields ++ methods) ∧
      ∀ rename ∈ fields ++ methods, rename.kind = kind → rename ∈ own := by
  cases kind with
  | field =>
    refine ⟨fields, found, fun _ => List.mem_append_left methods, fun rename member same => ?_⟩
    refine (List.mem_append.mp member).resolve_right fun other => ?_
    cases same.symm.trans (member_found_at found' other).1
  | method =>
    refine ⟨methods, found', fun _ => List.mem_append_right fields, fun rename member same => ?_⟩
    refine (List.mem_append.mp member).resolve_left fun other => ?_
    cases same.symm.trans (member_found_at found other).1

private theorem members_apart {fields methods : List MemberRename} {owner : String}
    (found : renamedMembers symbols file owner .field = .ok fields)
    (found' : renamedMembers symbols file owner .method = .ok methods) :
    (fields ++ methods).Pairwise fun first second =>
      first.kind ≠ second.kind ∨ first.position < second.position := by
  refine List.pairwise_append.mpr ⟨?_, ?_, fun first member second member' => .inl ?_⟩
  · exact (members_ordered found).imp .inr
  · exact (members_ordered found').imp .inr
  · rw [(member_found_at found member).1, (member_found_at found' member').1]
    simp

/-- The new name and descriptor of every member. -/
private theorem members_carried {fields methods : List MemberRename} {owner : String}
    {before after : ClassFile} {kind : MemberKind} {position : Nat} {slots : Index × Index}
    (found : renamedMembers symbols file owner .field = .ok fields)
    (found' : renamedMembers symbols file owner .method = .ok methods)
    (members : plan.members = fields ++ methods) (indexed : before.pool.Indexed)
    (keeps : Keeps file.pool before.pool)
    (same : before.symbolSlots kind = file.symbolSlots kind)
    (gives : Gives plan.renameMembers before () after)
    (here : (file.symbolSlots kind)[position]? = some slots) :
    ∃ name descriptor renamed, ∃ slots' : Index × Index, file.pool.utf8 slots.1 = .ok name ∧
      file.pool.utf8 slots.2 = .ok descriptor ∧
      renamedMember symbols kind owner name descriptor = .ok renamed ∧
      (after.symbolSlots kind)[position]? = some slots' ∧
      after.pool.utf8 slots'.1 = .ok (renamed.getD (name, descriptor)).1 ∧
      after.pool.utf8 slots'.2 = .ok (renamed.getD (name, descriptor)).2 := by
  obtain ⟨own, planned, mine, others⟩ := mem_members found found'
  have there := here
  rw [symbolSlots, List.getElem?_map, Option.map_eq_some_iff] at there
  obtain ⟨member, there, rfl⟩ := there
  obtain ⟨symbol, renamed, read, looked, planned'⟩ := member_looked_at planned there
  have whole := read
  simp only [ClassFile.symbol, bind_ok_iff, pure_ok_iff] at read
  obtain ⟨name, named, descriptor, described, rfl⟩ := read
  cases renamed with
  | some renamed =>
    have chosen := mine _ (planned' renamed rfl)
    rw [← members] at chosen
    obtain ⟨slots', there', names, describes⟩ :=
      member_renamed (members ▸ members_apart found found') chosen indexed (same ▸ here) gives
    exact ⟨name, descriptor, some renamed, slots', named, described, looked, there', names, describes⟩
  | none =>
    -- The plan has a rename for the member only if one was found when the member was looked at.
    have skips : ∀ rename ∈ plan.members, rename.kind ≠ kind ∨ rename.position ≠ position := by
      intro rename chosen
      by_contra both
      obtain ⟨rfl, rfl⟩ : rename.kind = kind ∧ rename.position = position := by simpa using both
      obtain ⟨-, other, symbol', here', read', looked'⟩ :=
        member_found_at planned (others rename (members ▸ chosen) rfl)
      obtain rfl := Option.some.inj (there.symm.trans here')
      obtain rfl := Except.ok.inj (whole.symm.trans read')
      cases looked.symm.trans looked'
    have left := gives.moved (moves_renameMembers_other skips)
    exact ⟨name, descriptor, none, _, named, described, looked, left.slot.trans (same ▸ here),
      left.pool.utf8 (keeps.utf8 named), left.pool.utf8 (keeps.utf8 described)⟩

private theorem passes_carried {owner : String} {bootstrap : List Attribute.BootstrapMethod}
    {fields methods : List MemberRename} {first second third : ClassFile}
    (indexed : file.pool.Indexed)
    (slots : renamedConstants symbols file.pool bootstrap = .ok plan.pool)
    (found : renamedMembers symbols file owner .field = .ok fields)
    (found' : renamedMembers symbols file owner .method = .ok methods)
    (members : plan.members = fields ++ methods)
    (classes : Gives plan.renameClasses file () first)
    (references : Gives plan.renameSymbols first () second)
    (types : Gives plan.retypeMethodTypes second () third)
    (declarations : Gives plan.renameMembers third () after) :
    Carried symbols bootstrap owner file after := by
  have passes : InPool Keeps file third :=
    IsTrans.trans _ _ _ (classes.moved moves_renameClasses)
      (IsTrans.trans _ _ _ (references.moved moves_renameSymbols) (types.moved moves_retypeMethodTypes))
  have same : SameClass third after := declarations.moved moves_renameMembers
  -- The three passes over the pool leave the members where they are.
  have unmoved : ∀ kind, third.symbolSlots kind = file.symbolSlots kind := by
    intro kind
    rw [passes.rest]
    cases kind <;> rfl
  constructor
  · exact IsTrans.trans _ _ _ passes.pool same.pool.keeps
  · rw [same.thisClass, passes.rest]
  · rw [same.superClass, passes.rest]
  · rw [same.interfaces, passes.rest]
  · intro index constant here
    obtain ⟨planned, looked, listed⟩ := slot_looked_at slots here
    obtain ⟨current, there, settled⟩ := slot_settled (slots_ordered indexed slots)
      (planned_iff indexed slots here looked listed) indexed here classes references types
    exact ⟨planned, current, looked, same.pool.entry _ _ there, settled.keeps same.pool.keeps⟩
  · intro kind position slots here
    exact members_carried found found' members (passes.pool.indexed indexed) passes.pool (unmoved kind)
      declarations here
  · intro kind
    rw [same.count, unmoved]

/-- A plan that was made for a class and carried out on it did to every slot and every member what
was found for it. -/
theorem apply_carried {changed : Bool} (indexed : file.pool.Indexed)
    (planned : ofClass symbols file = .ok plan) (gives : Gives plan.apply file changed after) :
    ∃ owner bootstrap, file.name = .ok owner ∧
      ofAttribute file Attribute.bootstrapMethodsName Attribute.bootstrapMethods [] .ok =
        .ok bootstrap ∧
      Carried symbols bootstrap owner file after := by
  obtain ⟨owner, bootstrap, fields, methods, named, booted, slots, found, found', members, -⟩ :=
    (ofClass_ok_iff symbols file plan).mp planned
  refine ⟨owner, bootstrap, named, booted, ?_⟩
  rw [apply] at gives
  split at gives
  -- An empty plan is not carried out, which comes to the same as three passes over nothing.
  next empty =>
    obtain ⟨-, rfl⟩ := (gives_pure_iff _ _ _ _).mp gives
    obtain ⟨⟨⟨nothing, nobody⟩, -⟩, -⟩ : ((plan.pool = [] ∧ plan.members = []) ∧ _) ∧ _ := by
      simpa [isEmpty] using empty
    have idle : ∀ {step : Index × PoolRename → ClassEdit Unit},
        Gives (plan.pool.forM step) after () after := by
      intro step
      rw [nothing]
      exact ran_pure () after
    refine passes_carried indexed slots found found' members idle idle idle ?_
    rw [renameMembers, nobody]
    exact ran_pure () after
  · simp only [gives_bind_iff, gives_pure_iff] at gives
    obtain ⟨_, first, classes, _, second, references, _, third, types, _, fourth, declarations,
      _, fifth, inners, _, last, enclosing, -, rfl⟩ := gives
    have carried := passes_carried indexed slots found found' members classes references types
      declarations
    exact (carried.later (inners.moved (moves_renameInners plan))).later
      (enclosing.moved (moves_renameEnclosing plan))

end

end JarRemap.RenamePlan
