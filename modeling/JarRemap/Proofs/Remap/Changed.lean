import JarRemap.Proofs.Mapping.ClassNames
import JarRemap.Proofs.Remap.Attributes

/-!
# When remapping says that a class changed

A signature or a table is given another body only if a text in it gets another name, and a plan has
places only for what gets another name. A class that the mapping gives its own name is the exception:
it has a place in the plan although nothing is different afterwards.
-/

namespace JarRemap

open ClassFile ConstantPool Attribute

namespace Remap

/-! ## Signatures and local variables -/

/-- The step says truly whether it made something else of the item, and left the pool alone if it did
not. -/
structure Truthful {α : Type} (item : α) (result : α × Bool) (before after : ConstantPool) : Prop where
  unchanged : result.2 = false → result.1 = item ∧ after = before
  changed : result.2 = true → result.1 ≠ item

section

variable {symbols : SymbolMap} {rename : String → Except Fault String} {before after : ConstantPool}

theorem renameText_none {index : Index} (gives : Gives (renameText rename index) before none after) :
    after = before := by
  simp only [renameText, gives_bind_iff, gives_get_iff, gives_lift_iff] at gives
  obtain ⟨_, _, ⟨rfl, rfl⟩, old, _, ⟨-, rfl⟩, new, _, ⟨-, rfl⟩, gives⟩ := gives
  split at gives
  · exact ((gives_pure_iff _ _ _ _).mp gives).2
  · obtain ⟨_, _, -, none_⟩ := (gives_bind_iff _ _ _ _ _).mp gives
    cases ((gives_pure_iff _ _ _ _).mp none_).1

/-- Another text is in another slot. -/
theorem renameText_some {index new : Index} (indexed : before.Indexed)
    (gives : Gives (renameText rename index) before (some new) after) : new ≠ index := by
  have grown : Extends before after := gives.moved (asks_renameText rename index Extends)
  have reads := renameText_gives indexed gives
  simp only [renameText, gives_bind_iff, gives_get_iff, gives_lift_iff] at gives
  obtain ⟨_, _, ⟨rfl, rfl⟩, old, _, ⟨read, rfl⟩, text, _, ⟨renamed, rfl⟩, gives⟩ := gives
  split at gives
  · cases ((gives_pure_iff _ _ _ _).mp gives).1
  next differs =>
    obtain ⟨text', renamed', reads⟩ := reads old read
    obtain rfl := Except.ok.inj (renamed.symm.trans renamed')
    rintro rfl
    exact differs (Except.ok.inj (reads.symm.trans (grown.utf8 read)))

theorem renameVariable_truthful {record : LocalVariable} {result : LocalVariable × Bool}
    (indexed : before.Indexed) (gives : Gives (renameVariable rename record) before result after) :
    Truthful record result before after := by
  obtain ⟨found, middle, renames, gives⟩ := (gives_bind_iff _ _ _ _ _).mp gives
  cases found with
  | none =>
    obtain ⟨rfl, rfl⟩ := (gives_pure_iff _ _ _ _).mp gives
    exact ⟨fun _ => ⟨rfl, renameText_none renames⟩, fun same => by cases same⟩
  | some index =>
    obtain ⟨rfl, rfl⟩ := (gives_pure_iff _ _ _ _).mp gives
    refine ⟨fun same => (by cases same), fun _ same => renameText_some indexed renames ?_⟩
    exact congrArg LocalVariable.descriptor same

/-- A traversal whose steps say truly what they did does so as a whole. -/
theorem truthful_mapM {α : Type} {step : α → PoolEdit (α × Bool)} {items : List α}
    {results : List (α × Bool)} (asks : ∀ item, Asks (step item))
    (truthful : ∀ {item result before after}, before.Indexed → Gives (step item) before result after →
      Truthful item result before after)
    (indexed : before.Indexed) (gives : Gives (items.mapM step) before results after) :
    Truthful items (results.map Prod.fst, results.any Prod.snd) before after := by
  -- The pool may grow with every item, so the induction is for any pool whose slots have indices.
  induction items generalizing before results with
  | nil =>
    rw [List.mapM_nil] at gives
    obtain ⟨rfl, rfl⟩ := (gives_pure_iff _ _ _ _).mp gives
    exact ⟨fun _ => ⟨rfl, rfl⟩, fun same => by cases same⟩
  | cons item items ih =>
    simp only [List.mapM_cons, gives_bind_iff, gives_pure_iff] at gives
    obtain ⟨result, middle, first, others, _, rest, rfl, rfl⟩ := gives
    have grown : Extends before middle := first.moved (asks item Extends)
    have here := truthful indexed first
    have behind := ih (grown.indexed indexed) rest
    constructor
    · intro none_
      simp only [List.any_cons, Bool.or_eq_false_iff] at none_
      obtain ⟨same, rfl⟩ := here.unchanged none_.1
      obtain ⟨same', rfl⟩ := behind.unchanged none_.2
      exact ⟨congrArg₂ List.cons same same', rfl⟩
    · intro some_ same
      obtain ⟨same, same'⟩ := List.cons.inj same
      simp only [List.any_cons, Bool.or_eq_true] at some_
      rcases some_ with changed | changed
      · exact here.changed changed same
      · exact behind.changed changed same'

theorem renameTable_truthful {item : Attribute} {result : Attribute × Bool} (indexed : before.Indexed)
    (gives : Gives (renameTable rename item) before result after) :
    Truthful item result before after := by
  simp only [renameTable, gives_bind_iff, gives_lift_iff] at gives
  obtain ⟨records, before, ⟨parsed, rfl⟩, renamed, middle, renames, gives⟩ := gives
  have truthful := truthful_mapM (asks_renameVariable rename) renameVariable_truthful indexed renames
  split at gives
  next some_ =>
    simp only [gives_bind_iff, gives_lift_iff, gives_pure_iff] at gives
    obtain ⟨body, _, ⟨encoded, rfl⟩, rfl, rfl⟩ := gives
    refine ⟨fun same => (by cases same), fun _ same => truthful.changed some_ ?_⟩
    have parsed' : localVariables.parse localVariableTableName body = .ok (renamed.map Prod.fst) :=
      (localVariables_exact.parse_ok_iff _ _ _).mpr encoded
    obtain rfl : body = item.body := congrArg Attribute.body same
    exact Except.ok.inj (parsed'.symm.trans parsed)
  next none_ =>
    obtain ⟨rfl, rfl⟩ := (gives_pure_iff _ _ _ _).mp gives
    exact ⟨fun _ => ⟨rfl, (truthful.unchanged (by simpa using none_)).2⟩, fun same => by cases same⟩

theorem renameNested_truthful {item : Attribute} {result : Attribute × Bool} (indexed : before.Indexed)
    (gives : Gives (renameNested symbols item) before result after) :
    Truthful item result before after := by
  simp only [renameNested, gives_bind_iff, gives_get_iff, gives_lift_iff] at gives
  obtain ⟨_, _, ⟨rfl, rfl⟩, name, before, ⟨read, rfl⟩, gives⟩ := gives
  split at gives
  · exact renameTable_truthful indexed gives
  · split at gives
    · exact renameTable_truthful indexed gives
    · obtain ⟨rfl, rfl⟩ := (gives_pure_iff _ _ _ _).mp gives
      exact ⟨fun _ => ⟨rfl, rfl⟩, fun same => by cases same⟩

end

/-! ## One attribute after another -/

/-- The attribute that the task is about has another body than it had. -/
def Turned (task : Task) (before after : ClassFile) : Prop :=
  ∃ body, after.bodyAt task.place.1 task.place.2 = some body ∧
    before.bodyAt task.place.1 task.place.2 ≠ some body

section

variable {symbols : SymbolMap} {before after : ClassFile} {changed : Bool}

theorem renameSignature_truthful {site : Site} (indexed : before.pool.Indexed)
    (gives : Gives (renameSignature symbols site) before changed after) :
    (changed = false → after = before) ∧ (changed = true → Turned (.signature site) before after) := by
  refine (renameSignature_reworks gives).truthful ?_ ?_
  · rintro body pool ⟨index, _, -, renames, ⟨⟩⟩
    exact renameText_none renames
  · rintro body new pool ⟨index, slot, parsed, renames, encoded⟩
    cases encoded with
    | some encoded =>
      refine ⟨renames.moved (asks_renameText _ index Extends),
        renames.moved (asks_renameText _ index SameTexts), ?_⟩
      -- A body is read as one index only, and the index is another one.
      rintro rfl
      have parsed' := (signature_exact.parse_ok_iff signatureName _ _).mpr encoded
      exact renameText_some indexed renames (Except.ok.inj (parsed'.symm.trans parsed))

theorem renameLocals_truthful {site : Site} (indexed : before.pool.Indexed)
    (gives : Gives (renameLocals symbols site) before changed after) :
    (changed = false → after = before) ∧ (changed = true → Turned (.locals site) before after) := by
  refine (renameLocals_reworks gives).truthful ?_ ?_
  · rintro body pool ⟨parts, renamed, -, renames, none_, -⟩
    have truthful := truthful_mapM (asks_renameNested symbols) renameNested_truthful indexed renames
    exact (truthful.unchanged none_).2
  · intro body new pool worked
    refine ⟨worked.moved Extends, worked.moved SameTexts, ?_⟩
    obtain ⟨parts, renamed, parsed, renames, some_, encoded⟩ := worked
    have truthful := truthful_mapM (asks_renameNested symbols) renameNested_truthful indexed renames
    -- The same body would be read as the same nested attributes.
    rintro rfl
    have same := Except.ok.inj ((code_nested parsed (encoded _ rfl)).symm.trans parsed)
    exact truthful.changed some_ (congrArg Code.attributes same)

theorem anyOf_truthful {tasks : List Task} (nodup : tasks.Nodup) (indexed : before.pool.Indexed)
    (gives : Gives (anyOf (tasks.map (Task.run symbols))) before changed after) :
    (changed = false → after = before) ∧ (changed = true → ∃ task, Turned task before after) := by
  -- The induction has to say which task it was, since no other task is about its attribute.
  suffices (changed = false → after = before) ∧
      (changed = true → ∃ task ∈ tasks, Turned task before after) from
    ⟨this.1, fun some_ => (this.2 some_).imp fun _ => And.right⟩
  induction tasks generalizing before changed with
  | nil =>
    obtain ⟨rfl, rfl⟩ := (gives_pure_iff _ _ _ _).mp gives
    exact ⟨fun _ => rfl, fun same => by cases same⟩
  | cons task tasks ih =>
    obtain ⟨unlisted, nodup⟩ := List.nodup_cons.mp nodup
    simp only [List.map_cons, anyOf, gives_bind_iff, gives_pure_iff] at gives
    obtain ⟨found, middle, first, others, _, rest, rfl, rfl⟩ := gives
    have here := task.touches indexed first
    have indexed' := here.keeps.indexed indexed
    have behind := ih nodup indexed' rest
    have own : (found = false → middle = before) ∧ (found = true → Turned task before middle) := by
      cases task with
      | signature site => exact renameSignature_truthful indexed first
      | locals site => exact renameLocals_truthful indexed first
    refine ⟨fun none_ => ?_, fun some_ => ?_⟩
    · rw [Bool.or_eq_false_iff] at none_
      rw [behind.1 none_.2, own.1 none_.1]
    · rcases (Bool.or_eq_true_iff.mp some_) with some_ | some_
      · -- What this task did is left alone by the later ones, which are about other attributes.
        obtain ⟨body, turned, differs⟩ := own.2 some_
        have other : ¬ ∃ later ∈ tasks, later.Owns task.place.1 task.place.2 := by
          rintro ⟨later, member, owns⟩
          exact unlisted (Task.place_injective owns ▸ member)
        exact ⟨task, List.mem_cons_self, body, (anyOf_touches indexed' rest).bodyAt other turned, differs⟩
      · obtain ⟨later, member, body, turned, differs⟩ := behind.2 some_
        have other : ¬ task.Owns later.place.1 later.place.2 := fun owns =>
          unlisted (Task.place_injective owns ▸ member)
        exact ⟨later, List.mem_cons_of_mem _ member, body, turned,
          fun same => differs (here.bodyAt other same)⟩

theorem renameSignatures_truthful (indexed : before.pool.Indexed)
    (gives : Gives (renameSignatures symbols) before changed after) :
    (changed = false → after = before) ∧ (changed = true → ∃ task, Turned task before after) :=
  anyOf_truthful (tasks_nodup before) indexed (gives_tasks gives)

end

end Remap

/-! ## What is planned is another name -/

namespace RenamePlan

/-- Pool entries, members and attributes are the same. -/
structure SameContents (old new : ClassFile) : Prop where
  entries : new.pool.entries = old.pool.entries
  members : ∀ kind, new.members kind = old.members kind
  attributes : new.attributes = old.attributes

theorem SameContents.bodyAt {old new : ClassFile} (same : SameContents old new) (site : Site)
    (name : String) : new.bodyAt site name = old.bodyAt site name := by
  have list : new.attributeList site = old.attributeList site := by
    cases site with
    | wholeClass => exact same.attributes
    | member kind position => rw [attributeList_member, attributeList_member, same.members]
  have named : isNamed new.pool name = isNamed old.pool name := by
    funext item
    simp only [isNamed, hasText, utf8, lookup, same.entries]
  simp only [ClassFile.bodyAt, body?, list, named]

section

variable {symbols : SymbolMap} {old new : ConstantPool}

theorem renamedMember_ne {kind : MemberKind} {owner : String} {symbol renamed : String × String}
    (looked : renamedMember symbols kind owner symbol.1 symbol.2 = .ok (some renamed)) :
    renamed ≠ symbol := by
  simp only [renamedMember, bind_ok_iff, pure_ok_iff] at looked
  obtain ⟨_, -, found⟩ := looked
  rw [changed] at found
  split at found
  · cases found
  next differs =>
    obtain rfl := Option.some.inj found
    exact differs

theorem renamedInner_ne {record : InnerClass} {text : String}
    (looked : renamedInner symbols old record = .ok (some text)) :
    ∃ simple, old.utf8 record.simpleName = .ok simple ∧ text ≠ simple := by
  rw [renamedInner] at looked
  split at looked
  · cases looked
  · simp only [bind_ok_iff] at looked
    obtain ⟨_, -, renamed, -, looked⟩ := looked
    split at looked
    · cases looked
    · simp only [bind_ok_iff, pure_ok_iff] at looked
      obtain ⟨simple, read, found⟩ := looked
      split at found
      · cases found
      next differs =>
        obtain rfl := Option.some.inj found
        exact ⟨simple, read, fun same => differs (by simp [same])⟩

/-- A constant that is not pointed elsewhere still has its own symbol. -/
private theorem symbol_of_done {constant : Constant} {slot : Index} {symbol : String × String}
    {name descriptor : String} (keeps : Keeps old new)
    (own : withSymbol slot constant = some constant) (described : old.nameAndType slot = .ok symbol)
    (done : (PoolRename.symbol name descriptor).Done new constant constant) :
    (name, descriptor) = symbol := by
  obtain ⟨place, asked, reads⟩ := done
  obtain rfl := withSymbol_injective asked own
  exact Except.ok.inj (reads.symm.trans (keeps.nameAndType described))

/-- What is planned for a slot is already done only where a class gets its own name. -/
theorem renamedConstant_done {bootstrap : List BootstrapMethod} {index : Index} {constant : Constant}
    {rename : PoolRename} (keeps : Keeps old new)
    (here : old.entries[index.toNat]? = some constant)
    (looked : renamedConstant symbols old bootstrap index constant = .ok (some rename))
    (done : rename.Done new constant constant) :
    ∃ name, old.className index = .ok name ∧ symbols.renameReference name = .ok (some name) := by
  -- What has a symbol is given another one only.
  have reference {kind : ReferenceKind} {owner slot : Index}
      (parts : constant.reference? = some (kind, owner, slot)) : False := by
    obtain ⟨found, _, read, asked, planned⟩ := (renamedConstant_reference_ok_iff here parts).mp looked
    obtain ⟨renamed, rfl, rfl⟩ := Option.map_eq_some_iff.mp planned
    obtain ⟨-, -, described⟩ := (memberOf_ok_iff _ _ _ _ _).mp read
    exact renamedMember_ne asked (symbol_of_done keeps (withSymbol_own parts) described done)
  cases constant with
  | classRef text =>
    simp only [renamedConstant, bind_ok_iff, pure_ok_iff, Option.map_eq_some_iff] at looked
    obtain ⟨name, named, _, renames, renamed, rfl, rfl⟩ := looked
    obtain ⟨-, _, same, reads⟩ := done
    obtain rfl := Constant.classRef.inj same
    have named' := keeps.utf8 ((className_of_entry here).symm.trans named)
    obtain rfl := Except.ok.inj (reads.symm.trans named')
    exact ⟨_, named, renames⟩
  | fieldRef owner slot => exact (reference rfl).elim
  | methodRef owner slot => exact (reference rfl).elim
  | interfaceMethodRef owner slot => exact (reference rfl).elim
  | dynamic method slot =>
    simp only [renamedConstant, bind_ok_iff, pure_ok_iff] at looked
    obtain ⟨⟨name, descriptor⟩, described, renamed, -, found⟩ := looked
    split at found
    · cases found
    next differs =>
      obtain rfl := Option.some.inj found
      obtain ⟨-, same⟩ := Prod.mk.inj (symbol_of_done keeps rfl described done)
      exact absurd same differs
  | invokeDynamic method slot =>
    simp only [renamedConstant, bind_ok_iff, pure_ok_iff, Option.map_eq_some_iff] at looked
    obtain ⟨⟨name, descriptor⟩, described, renamed, -, _, found, rfl⟩ := looked
    rw [changed] at found
    split at found
    · cases found
    next differs =>
      obtain rfl := Option.some.inj found
      exact absurd (symbol_of_done keeps rfl described done) differs
  | methodType text =>
    simp only [renamedConstant, bind_ok_iff, pure_ok_iff] at looked
    obtain ⟨descriptor, described, renamed, -, found⟩ := looked
    split at found
    · cases found
    next differs =>
      obtain rfl := Option.some.inj found
      obtain ⟨-, _, same, reads⟩ := done
      obtain rfl := Constant.methodType.inj same
      exact absurd (Except.ok.inj (reads.symm.trans (keeps.utf8 described))) differs
  | _ => cases looked

end

section

variable {symbols : SymbolMap} {plan : RenamePlan} {before after : ClassFile} {changed : Bool}

theorem apply_changed (gives : Gives plan.apply before changed after) :
    changed = !plan.isEmpty ∧ (changed = false → after = before) := by
  rw [apply] at gives
  split at gives
  next empty =>
    obtain ⟨rfl, rfl⟩ := (gives_pure_iff _ _ _ _).mp gives
    exact ⟨by simp [empty], fun _ => rfl⟩
  next full =>
    simp only [gives_bind_iff, gives_pure_iff] at gives
    obtain ⟨_, _, _, _, _, _, _, _, _, _, _, _, _, _, _, _, _, _, rfl, rfl⟩ := gives
    exact ⟨by simpa using full, fun same => by cases same⟩

private theorem no_members {owner : String} {bootstrap : List BootstrapMethod} {kind : MemberKind}
    {renames : List MemberRename} (carried : Carried symbols bootstrap owner before after)
    (same : SameContents before after)
    (found : renamedMembers symbols before owner kind = .ok renames) : renames = [] := by
  refine List.eq_nil_iff_forall_not_mem.mpr fun rename listed => ?_
  obtain ⟨rfl, member, symbol, here, read, looked⟩ := member_found_at found listed
  obtain ⟨_, renamed, _, read', answer, there, reads⟩ := carried.member here
  obtain rfl := Except.ok.inj (read.symm.trans read')
  rw [same.members, here] at there
  obtain rfl := Option.some.inj there
  obtain rfl := Except.ok.inj (answer.symm.trans (renamedSymbol_of_member looked))
  -- The member has its old slots, so it would say the old symbol and the new one at once.
  have kept : after.symbol member = .ok symbol := by
    simp only [ClassFile.symbol, bind_ok_iff, pure_ok_iff] at read ⊢
    obtain ⟨first, named, second, described, rfl⟩ := read
    exact ⟨first, carried.keeps.utf8 named, second, carried.keeps.utf8 described, rfl⟩
  exact renamedMember_ne looked (Except.ok.inj (reads.symm.trans kept))

private theorem no_names {names : List (Nat × String)} (indexed : before.pool.Indexed)
    (planned : ofClass symbols before = .ok plan) (gives : Gives plan.apply before changed after)
    (keeps : Keeps before.pool after.pool) (same : SameContents before after)
    (nested : ofAttribute before innerClassesName innerClasses [] (renamedInners symbols before.pool) =
      .ok names) : names = [] := by
  cases there : before.bodyAt .wholeClass innerClassesName with
  | none =>
    rw [ofAttribute, show body? before.pool _ before.attributes = none from there] at nested
    exact (Except.ok.inj nested).symm
  | some body =>
    rw [ofAttribute, show body? before.pool _ before.attributes = some body from there] at nested
    obtain ⟨records, parsed, looked⟩ := (bind_ok_iff _ _ _).mp nested
    obtain ⟨body', records', turned, parsed', renamed⟩ := apply_inners indexed planned gives there parsed
    obtain rfl := Option.some.inj (turned.symm.trans ((same.bodyAt _ _).trans there))
    obtain rfl := Except.ok.inj (parsed.symm.trans parsed')
    -- A record with a name in the plan would have both names in the same slot.
    refine List.eq_nil_iff_forall_not_mem.mpr fun item member => ?_
    obtain ⟨position, record, here, look⟩ := found_at looked member
    simp only [bind_ok_iff, pure_ok_iff, Option.map_eq_some_iff] at look
    obtain ⟨_, looked, text, rfl, -⟩ := look
    obtain ⟨_, there, -, _, looked', -, named⟩ := forall₂_getElem? renamed here
    obtain rfl := Option.some.inj (here.symm.trans there)
    obtain rfl := Except.ok.inj (looked.symm.trans looked')
    obtain ⟨old, read, differs⟩ := renamedInner_ne looked
    exact differs (Except.ok.inj ((named text rfl).symm.trans (keeps.utf8 read)))

private theorem not_enclosed {enclosing : Option (EnclosingMethod × String × String)}
    (indexed : before.pool.Indexed) (planned : ofClass symbols before = .ok plan)
    (gives : Gives plan.apply before changed after) (keeps : Keeps before.pool after.pool)
    (same : SameContents before after)
    (around : ofAttribute before enclosingMethodName enclosingMethod none
      (renamedEnclosing symbols before.pool) = .ok enclosing) : enclosing = none := by
  cases there : before.bodyAt .wholeClass enclosingMethodName with
  | none =>
    rw [ofAttribute, show body? before.pool _ before.attributes = none from there] at around
    exact (Except.ok.inj around).symm
  | some body =>
    rw [ofAttribute, show body? before.pool _ before.attributes = some body from there] at around
    obtain ⟨place, parsed, looked⟩ := (bind_ok_iff _ _ _).mp around
    rw [renamedEnclosing] at looked
    split at looked
    · exact (Except.ok.inj looked).symm
    next inside =>
      obtain ⟨_, symbol, renamed, body', named, described, answer, turned, method, parsed', reads⟩ :=
        apply_enclosing indexed planned gives there parsed inside
      obtain rfl := Option.some.inj (turned.symm.trans ((same.bodyAt _ _).trans there))
      -- The body is the same as before, and so is the slot that it refers to.
      have kept : method = place.method :=
        congrArg EnclosingMethod.method (Except.ok.inj (parsed'.symm.trans parsed))
      simp only [bind_ok_iff, pure_ok_iff] at looked
      obtain ⟨_, named', _, described', renamed', answer', found⟩ := looked
      obtain rfl := Except.ok.inj (named.symm.trans named')
      obtain rfl := Except.ok.inj (described.symm.trans described')
      obtain rfl := Except.ok.inj (answer.symm.trans answer')
      rw [kept] at reads
      have equal := Except.ok.inj (reads.symm.trans (keeps.nameAndType described))
      cases renamed with
      | none => exact found.symm
      | some renamed => exact absurd equal (renamedMember_ne answer)

/-- A class that gets its own name has a place in the plan. -/
theorem isEmpty_of_own {slot : Index} {name : String} (planned : ofClass symbols before = .ok plan)
    (named : before.pool.className slot = .ok name)
    (own : symbols.renameReference name = .ok (some name)) : plan.isEmpty = false := by
  obtain ⟨_, bootstrap, _, _, -, -, slots, -⟩ := (ofClass_ok_iff _ _ _).mp planned
  obtain ⟨text, here⟩ := entry_of_className named
  obtain ⟨result, looked, listed⟩ := slot_looked_at slots here
  simp only [renamedConstant, named, bind_ok_iff, pure_ok_iff] at looked
  obtain ⟨_, same, _, found, rfl⟩ := looked
  obtain rfl := Except.ok.inj same
  obtain rfl := Except.ok.inj (own.symm.trans found)
  have full : plan.pool ≠ [] := List.ne_nil_of_mem (listed _ rfl)
  simp [isEmpty, full]

/-- If nothing is different after a plan was carried out, then either it was empty or some class got
its own name. -/
theorem isEmpty_of_sameContents (indexed : before.pool.Indexed)
    (planned : ofClass symbols before = .ok plan) (gives : Gives plan.apply before changed after)
    (same : SameContents before after) (full : plan.isEmpty = false) :
    ∃ slot name, before.pool.className slot = .ok name ∧
      symbols.renameReference name = .ok (some name) := by
  obtain ⟨owner', bootstrap', named', booted', carried⟩ := apply_carried indexed planned gives
  obtain ⟨owner, bootstrap, fields, methods, named, booted, slots, found, found', members, nested, around⟩ :=
    (ofClass_ok_iff symbols before plan).mp planned
  obtain rfl := Except.ok.inj (named.symm.trans named')
  obtain rfl := Except.ok.inj (booted.symm.trans booted')
  by_contra own
  -- Every place of the plan stands for a difference.
  have noSlots : plan.pool = [] := by
    refine List.eq_nil_iff_forall_not_mem.mpr fun (index, rename) member => own ?_
    obtain ⟨constant, here, looked⟩ := slot_found_at indexed slots member
    obtain ⟨_, current, looked', there, settled⟩ := carried.slots here
    obtain rfl := Except.ok.inj (looked.symm.trans looked')
    rw [same.entries, here] at there
    obtain rfl := Option.some.inj there
    obtain ⟨name, read, renames⟩ := renamedConstant_done carried.keeps here looked settled
    exact ⟨index, name, read, renames⟩
  have noMembers : plan.members = [] := by
    rw [members, List.append_eq_nil_iff]
    exact ⟨no_members carried same found, no_members carried same found'⟩
  have noNames := no_names indexed planned gives carried.keeps same nested
  have nowhere := not_enclosed indexed planned gives carried.keeps same around
  simp [isEmpty, noSlots, noMembers, noNames, nowhere] at full

end

end RenamePlan

/-! ## Classes that get their own name -/

/-- Only an entry that gives a class its own name does so. -/
theorem MappingTable.entry_of_class?_self {table : MappingTable} {name : String}
    (own : table.class? name = some name) :
    ∃ entry ∈ table.entries, entry.kind = .class_ ∧ entry.newOwner = entry.oldOwner := by
  obtain ⟨chars, own, turned⟩ := Option.map_eq_some_iff.mp own
  obtain rfl : chars = name.toList := by rw [← turned, String.toList_ofList]
  clear turned
  generalize name.toList = chars at own
  -- A nested class gets its own name only if the class around it does, which has a shorter name.
  induction size : chars.length using Nat.strongRecOn generalizing chars with
  | ind size ih =>
    rw [renamed?_eq] at own
    obtain listed | ⟨-, nested | ⟨-, moved⟩⟩ : _ ∨ _ ∧ (_ ∨ _ ∧ _) := by
      simpa only [Option.or_eq_some_iff] using own
    · obtain ⟨new, assigned, same⟩ := Option.map_eq_some_iff.mp listed
      obtain ⟨before, entry, after, whole, kind, old, new', -⟩ := ask_owner?_eq_some_iff.mp assigned
      exact ⟨entry, by simp [whole], kind, by rw [old, new', ← same, String.ofList_toList]⟩
    · obtain ⟨⟨outer, inner⟩, parts, nested⟩ := Option.bind_eq_some_iff.mp nested
      obtain ⟨new, renamed, same⟩ := Option.map_eq_some_iff.mp nested
      obtain ⟨rfl, -, -⟩ := nesting?_eq_some_iff.mp parts
      obtain rfl := List.append_cancel_right same
      exact ih new.length (by simp [← size]) new renamed rfl
    · -- A package is only asked for another name.
      rw [packagedName?] at moved
      dsimp only at moved
      split at moved
      · cases moved
      next package _ =>
        obtain ⟨differs, same⟩ := Option.ite_none_left_eq_some.mp moved
        exact absurd (Option.some.inj same) differs

/-- An array class is only given another name. -/
theorem SymbolMap.entry_of_renameReference_self {symbols : SymbolMap} {name : String}
    (own : symbols.renameReference name = .ok (some name)) :
    ∃ entry ∈ symbols.table.entries, entry.kind = .class_ ∧ entry.newOwner = entry.oldOwner := by
  rw [renameReference, Descriptor.renameReference] at own
  split at own
  · simp only [bind_ok_iff, pure_ok_iff] at own
    obtain ⟨renamed, -, found⟩ := own
    split at found
    · cases found
    next differs => exact absurd (Option.some.inj found) differs
  · exact MappingTable.entry_of_class?_self (Except.ok.inj own)

/-- Remapping reports a change exactly if the class is different afterwards, or a class that it
mentions gets its own name. So the report is exact for every mapping without an entry that gives a
class its own name. -/
theorem remapClass_reports (symbols : SymbolMap) (before after : ClassFile) (changed : Bool)
    (indexed : before.pool.Indexed) (remapped : Gives (Remap.remapClass symbols) before changed after) :
    (changed = false → after = before) ∧
    (changed = true ↔ ¬ RenamePlan.SameContents before after ∨
      ∃ slot name, before.pool.className slot = .ok name ∧
        symbols.renameReference name = .ok (some name)) ∧
    ((∀ entry ∈ symbols.table.entries, entry.kind = .class_ → entry.newOwner ≠ entry.oldOwner) →
      (changed = true ↔ ¬ RenamePlan.SameContents before after)) := by
  simp only [Remap.remapClass, gives_bind_iff, ClassFile.gives_read_iff, gives_pure_iff] at remapped
  obtain ⟨plan, before, ⟨planned, rfl⟩, renamed, middle, applied, resigned, _, resigns, rfl, rfl⟩ :=
    remapped
  have early := RenamePlan.apply_touches indexed applied
  obtain ⟨kept, turned⟩ := Remap.renameSignatures_truthful (early.keeps.indexed indexed) resigns
  obtain ⟨rfl, unplanned⟩ := RenamePlan.apply_changed applied
  have unchanged : (!plan.isEmpty || resigned) = false → after = before := fun none_ => by
    rw [Bool.or_eq_false_iff] at none_
    rw [kept none_.2, unplanned none_.1]
  have reports : (!plan.isEmpty || resigned) = true ↔ ¬ RenamePlan.SameContents before after ∨
      ∃ slot name, before.pool.className slot = .ok name ∧
        symbols.renameReference name = .ok (some name) := by
    constructor
    · intro some_
      by_contra neither
      obtain ⟨same, own⟩ := not_or.mp neither
      have same := not_not.mp same
      have settled : resigned = false := by
        refine Bool.eq_false_iff.mpr fun some_ => ?_
        -- What the plan left alone is different afterwards, so it was different from the beginning.
        obtain ⟨task, body, there, differs⟩ := turned some_
        have other : ¬ (task.place.1 = .wholeClass ∧
            (task.place.2 = innerClassesName ∨ task.place.2 = enclosingMethodName)) := by
          rintro ⟨-, named⟩
          cases task <;> simp only [Remap.Task.place] at named <;> revert named <;> decide
        exact differs (early.bodyAt other ((same.bodyAt _ _).symm.trans there))
      obtain rfl := kept settled
      rw [settled, Bool.or_false, Bool.not_eq_true'] at some_
      exact own (RenamePlan.isEmpty_of_sameContents indexed planned applied same some_)
    · rintro (differs | ⟨slot, name, named, own⟩)
      · refine Bool.eq_true_of_not_eq_false fun none_ => differs ?_
        rw [unchanged none_]
        exact ⟨rfl, fun _ => rfl, rfl⟩
      · simp [RenamePlan.isEmpty_of_own planned named own]
  refine ⟨unchanged, reports, fun apart => reports.trans (or_iff_left ?_)⟩
  rintro ⟨slot, name, -, own⟩
  obtain ⟨entry, member, kind, same⟩ := SymbolMap.entry_of_renameReference_self own
  exact apart entry member kind same

theorem remapClass_reports_enclosed :
    enclosed.pool.Indexed ∧ ∃ after, Gives (Remap.remapClass enclosedNames) enclosed true after ∧
      ¬ RenamePlan.SameContents enclosed after := by
  have indexed : enclosed.pool.Indexed := by
    unfold ConstantPool.Indexed
    decide
  have remapped : Gives (Remap.remapClass enclosedNames) enclosed true
      (ran (Remap.remapClass enclosedNames) enclosed).2 := Prod.ext (by decide +kernel) rfl
  have exact_ := (remapClass_reports enclosedNames enclosed _ true indexed remapped).2.2 (by decide)
  exact ⟨indexed, _, remapped, exact_.mp rfl⟩

/-- The class `A` and nothing else. -/
def bareClass : ClassFile :=
  ⟨0, 52, .ofEntries [.unusable, .utf8 "A", .classRef 1], ⟨0⟩, 2, 0, [], [], [], []⟩

/-- A change is reported for a class that is the same as before, since it was given its own name. -/
theorem remapClass_reports_own_name :
    Gives (Remap.remapClass ⟨⟨[.ofOwners .class_ "A" "A"]⟩, .empty⟩) bareClass true bareClass :=
  Prod.ext (by decide +kernel) (by decide +kernel)

end JarRemap
