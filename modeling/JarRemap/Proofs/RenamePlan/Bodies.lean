import JarRemap.Proofs.ClassFile.Bodies
import JarRemap.Proofs.RenamePlan.Apply

/-!
# What a plan does to attributes

Carrying out a plan gives two attributes of the class another body: the records of nested classes get
other simple names, and the enclosing method gets another name and descriptor.
-/

namespace JarRemap.RenamePlan

open ClassFile ConstantPool Attribute

section

variable {name : String} {work : ConstantPool → ConstantPool → Bytes → Bytes → Prop}
  {before after : ClassFile}

/-- The first attribute with the name has the body that the change made of its old one. -/
private theorem changeAttribute_rewrites {change : Bytes → ClassEdit Bytes}
    (gives : Gives (changeAttribute name change) before () after)
    (does : ∀ {body changed middle}, before.bodyAt .wholeClass name = some body →
      Gives (change body) before changed middle →
      ∃ pool, Extends before.pool pool ∧ SameTexts before.pool pool ∧
        middle = { before with pool := pool } ∧ work before.pool pool body changed) :
    Rewrites .wholeClass name work before after := by
  simp only [changeAttribute, gives_bind_iff, gives_get_iff] at gives
  obtain ⟨_, before, ⟨rfl, rfl⟩, gives⟩ := gives
  have list : before.attributeList .wholeClass = before.attributes := rfl
  rcases first_or_absent before.pool name before.attributes with ⟨front, item, back, first⟩ | absent
  · have there : before.bodyAt .wholeClass name = some item.body := first.body?_eq
    rw [first.position?_eq, first.body?_eq] at gives
    simp only [gives_bind_iff, gives_modify_iff] at gives
    obtain ⟨changed, _, changes, rfl⟩ := gives
    obtain ⟨pool, grown, texts, rfl, worked⟩ := does there changes
    rw [first.split, setBody_append]
    exact .first first grown texts worked
  · rw [absent.position?_eq, absent.body?_eq] at gives
    obtain ⟨-, rfl⟩ := (gives_pure_iff _ _ _ _).mp gives
    exact .absent absent

end

/-! ## Nested classes -/

private theorem withInnerName_gives {records found : List InnerClass} {position : Nat} {name : String}
    {before after : ConstantPool} (gives : Gives (withInnerName records position name) before found after) :
    List.Forall₂ InnerClass.SameButName records found := by
  have same : List.Forall₂ InnerClass.SameButName records records :=
    List.forall₂_same.mpr fun _ _ => rfl
  rw [withInnerName] at gives
  split at gives
  · simp only [gives_bind_iff, gives_pure_iff] at gives
    obtain ⟨index, _, -, rfl, -⟩ := gives
    refine forall₂_of_getElem? (List.length_modify _ _ _) fun place record here => ?_
    refine ⟨_, by rw [List.getElem?_modify, here]; rfl, ?_⟩
    split <;> rfl
  · obtain ⟨rfl, -⟩ := (gives_pure_iff _ _ _ _).mp gives
    exact same

private theorem withInnerNames_gives {names : List (Nat × String)} {records found : List InnerClass}
    {before after : ConstantPool}
    (gives : Gives (names.foldlM (fun records (place, text) => withInnerName records place text)
      records) before found after) : List.Forall₂ InnerClass.SameButName records found := by
  induction names generalizing records before with
  | nil =>
    rw [List.foldlM_nil] at gives
    obtain ⟨rfl, -⟩ := (gives_pure_iff _ _ _ _).mp gives
    exact List.forall₂_same.mpr fun _ _ => rfl
  | cons renamed names ih =>
    rw [List.foldlM_cons] at gives
    obtain ⟨between, middle, first, rest⟩ := (gives_bind_iff _ _ _ _ _).mp gives
    refine forall₂_trans ?_ (withInnerName_gives first) (ih rest)
    exact fun _ _ _ => InnerClass.SameButName.trans

private theorem asks_withInnerNames (names : List (Nat × String)) (records : List InnerClass) :
    Asks (names.foldlM (fun records (place, text) => withInnerName records place text)
      records) := fun related _ =>
  moves_foldlM (fun _ _ => asks_withInnerName _ _ _ related) _ _

/-- Each record has the simple name that is listed for its position, and is as it was if none is. -/
def NamesGiven (names : List (Nat × String)) (pool : ConstantPool) (records found : List InnerClass) :
    Prop :=
  ∀ (position : Nat) record, records[position]? = some record →
    ∃ record', found[position]? = some record' ∧
      (∀ name, (position, name) ∈ names → pool.utf8 record'.simpleName = .ok name) ∧
      ((∀ name, (position, name) ∉ names) → record' = record)

private theorem namesGiven_nil (pool : ConstantPool) (records : List InnerClass) :
    NamesGiven [] pool records records :=
  fun _ record here => ⟨record, here, by simp, fun _ => rfl⟩

private theorem withInnerName_given {records found : List InnerClass} {position : Nat} {name : String}
    {before after : ConstantPool} (indexed : before.Indexed)
    (gives : Gives (withInnerName records position name) before found after) :
    NamesGiven [(position, name)] after records found := by
  rw [withInnerName] at gives
  intro place record here
  split at gives
  · simp only [gives_bind_iff, gives_pure_iff] at gives
    obtain ⟨index, _, interned, rfl, rfl⟩ := gives
    refine ⟨_, by rw [List.getElem?_modify, here]; rfl, ?_⟩
    -- Only the record at the position is changed, which is the one that the list has a name for.
    by_cases same : position = place
    · simp only [same, if_true]
      refine ⟨fun other listed => ?_, fun unlisted => absurd List.mem_cons_self (unlisted name)⟩
      obtain rfl := (Prod.mk.inj (List.mem_singleton.mp listed)).2
      exact utf8Index_reads indexed interned
    · simp [same, Ne.symm same]
  next beyond =>
    obtain ⟨rfl, -⟩ := (gives_pure_iff _ _ _ _).mp gives
    refine ⟨record, here, fun other listed => ?_, fun _ => rfl⟩
    obtain ⟨rfl, -⟩ := Prod.mk.inj (List.mem_singleton.mp listed)
    exact absurd (List.getElem?_eq_some_iff.mp here).1 beyond

private theorem withInnerNames_given {names : List (Nat × String)} {records found : List InnerClass}
    {before after : ConstantPool} (indexed : before.Indexed)
    (apart : names.Pairwise fun first second => first.1 < second.1)
    (gives : Gives (names.foldlM (fun records (place, text) => withInnerName records place text)
      records) before found after) : NamesGiven names after records found := by
  induction names generalizing records before with
  | nil =>
    rw [List.foldlM_nil] at gives
    obtain ⟨rfl, -⟩ := (gives_pure_iff _ _ _ _).mp gives
    exact namesGiven_nil _ _
  | cons renamed names ih =>
    obtain ⟨behind, apart⟩ := List.pairwise_cons.mp apart
    rw [List.foldlM_cons] at gives
    obtain ⟨between, middle, first, rest⟩ := (gives_bind_iff _ _ _ _ _).mp gives
    -- What a name was given in an earlier step is still there after the later ones.
    have grown : Extends before middle := first.moved (asks_withInnerName _ _ _ Extends)
    have later : Extends middle after := rest.moved (asks_withInnerNames _ _ Extends)
    intro position record here
    obtain ⟨record', there, named, kept⟩ := withInnerName_given indexed first position record here
    obtain ⟨record'', there', named', kept'⟩ :=
      ih (grown.indexed indexed) apart rest position record' there
    refine ⟨record'', there', fun name listed => ?_, fun unlisted => ?_⟩
    · obtain now | listed := List.mem_cons.mp listed
      · -- No later name is for the same position.
        have last : ∀ other, (position, other) ∉ names := fun other listed =>
          Nat.lt_irrefl position (by simpa [← now] using behind _ listed)
        rw [kept' last]
        exact later.utf8 (named name (List.mem_singleton.mpr now))
      · exact named' name listed
    · rw [kept' fun name listed => unlisted name (List.mem_cons_of_mem _ listed)]
      exact kept fun name listed => unlisted name (List.mem_singleton.mp listed ▸ List.mem_cons_self)

section

variable {plan : RenamePlan} {before after : ClassFile}

/-- The records are read, get their names one after another, and are written again. -/
private def InnersStep (names : List (Nat × String)) (old new : ConstantPool) (body changed : Bytes) :
    Prop :=
  ∃ records found, innerClasses.parse innerClassesName body = .ok records ∧
    innerClasses.parse innerClassesName changed = .ok found ∧
    Gives (names.foldlM (fun records (place, text) => withInnerName records place text) records)
      old found new

private theorem renameInners_rewrites (some : plan.innerNames ≠ [])
    (gives : Gives plan.renameInners before () after) :
    Rewrites .wholeClass innerClassesName (InnersStep plan.innerNames) before after := by
  rw [renameInners, if_neg (by simpa using some)] at gives
  refine changeAttribute_rewrites gives fun {body changed middle} there changes => ?_
  simp only [gives_bind_iff, gives_lift_iff, gives_inPool_iff] at changes
  obtain ⟨records, before, ⟨parsed, rfl⟩, renamed, _, ⟨pool, renames, rfl⟩, encoded, rfl⟩ := changes
  exact ⟨pool, renames.moved (asks_withInnerNames _ _ Extends),
    renames.moved (asks_withInnerNames _ _ SameTexts), rfl, records, renamed, parsed,
    (innerClasses_exact.parse_ok_iff _ _ _).mpr encoded, renames⟩

private theorem renameInners_none (nothing : plan.innerNames = [])
    (gives : Gives plan.renameInners before () after) : after = before := by
  rw [renameInners, if_pos (by simpa using nothing)] at gives
  exact ((gives_pure_iff _ _ _ _).mp gives).2

/-- Only simple names are different in the records of nested classes. -/
private theorem renameInners_touches (gives : Gives plan.renameInners before () after) :
    Touches (fun site name => site = .wholeClass ∧ name = innerClassesName) before after := by
  by_cases nothing : plan.innerNames = []
  · rw [renameInners_none nothing gives]
    exact refl before
  · have other : innerClassesName ≠ codeName := by decide
    refine (renameInners_rewrites nothing gives).touches ?_
    rintro old new body changed ⟨records, found, parsed, parsed', renames⟩
    exact ⟨fun same => absurd same other,
      fun _ => ⟨records, found, parsed, parsed', withInnerNames_gives renames⟩⟩

/-- The body lists the same nested classes with other simple names. -/
def GivesNames (names : List (Nat × String)) (pool : ConstantPool) (body changed : Bytes) : Prop :=
  ∃ records records', innerClasses.parse innerClassesName body = .ok records ∧
    innerClasses.parse innerClassesName changed = .ok records' ∧
    List.Forall₂ InnerClass.SameButName records records' ∧ NamesGiven names pool records records'

/-- With no names to give, the body stays as it is. -/
private theorem renameInners_bodyAt (apart : plan.innerNames.Pairwise fun first second =>
      first.1 < second.1) (indexed : before.pool.Indexed)
    (gives : Gives plan.renameInners before () after) {body : Bytes} {records : List InnerClass}
    (there : before.bodyAt .wholeClass innerClassesName = some body)
    (parsed : innerClasses.parse innerClassesName body = .ok records) :
    ∃ body', after.bodyAt .wholeClass innerClassesName = some body' ∧
      GivesNames plan.innerNames after.pool body body' := by
  by_cases nothing : plan.innerNames = []
  · rw [renameInners_none nothing gives, nothing]
    exact ⟨body, there, records, records, parsed, parsed, List.forall₂_same.mpr fun _ _ => rfl,
      namesGiven_nil _ _⟩
  · obtain ⟨body', ⟨old, found, parsed, parsed', renames⟩, turned⟩ :=
      (renameInners_rewrites nothing gives).bodyAt there
    exact ⟨body', turned, old, found, parsed, parsed', withInnerNames_gives renames,
      withInnerNames_given indexed apart renames⟩

/-! ## The enclosing method -/

/-- The body says that the class is in the method of the symbol. -/
def Encloses (place : EnclosingMethod) (symbol : String × String) (pool : ConstantPool)
    (body : Bytes) : Prop :=
  ∃ method, enclosingMethod.parse enclosingMethodName body = .ok { place with method := method } ∧
    pool.nameAndType method = .ok symbol

private theorem renameEnclosing_rewrites {place : EnclosingMethod} {symbol : String × String}
    (planned : plan.enclosing = some (place, symbol)) (indexed : before.pool.Indexed)
    (gives : Gives plan.renameEnclosing before () after) :
    Rewrites .wholeClass enclosingMethodName (fun _ new _ changed => Encloses place symbol new changed)
      before after := by
  rw [renameEnclosing, planned] at gives
  refine changeAttribute_rewrites gives fun {body changed middle} there changes => ?_
  simp only [gives_bind_iff, gives_lift_iff, gives_inPool_iff] at changes
  obtain ⟨method, _, ⟨pool, interned, rfl⟩, encoded, rfl⟩ := changes
  exact ⟨pool, interned.moved (moves_nameAndTypeIndex _ _), interned.moved (moves_nameAndTypeIndex _ _),
    rfl, method, (enclosingMethod_exact.parse_ok_iff _ _ _).mpr encoded,
    nameAndTypeIndex_reads indexed interned⟩

private theorem renameEnclosing_touches (indexed : before.pool.Indexed)
    (gives : Gives plan.renameEnclosing before () after) :
    Touches (fun site name => site = .wholeClass ∧ name = enclosingMethodName) before after := by
  cases planned : plan.enclosing with
  | none =>
    rw [renameEnclosing, planned] at gives
    obtain ⟨-, rfl⟩ := (gives_pure_iff _ _ _ _).mp gives
    exact refl after
  | some enclosing =>
    have others : enclosingMethodName ≠ codeName ∧ enclosingMethodName ≠ innerClassesName := by decide
    exact (renameEnclosing_rewrites planned indexed gives).touches fun _ =>
      ⟨fun same => absurd same others.1, fun same => absurd same others.2⟩

end

/-! ## The whole plan -/

section

variable {symbols : SymbolMap} {plan : RenamePlan} {before after : ClassFile} {changed : Bool}

private theorem moves_pass_touches (selected : PoolRename → Bool) (item : Index × PoolRename) :
    Moves (Touches fun _ _ => False) (pass selected item) := by
  rw [pass]
  split
  · exact fun file => touches_inPool _ (item.2.moves_edit_keeps item.1 file.pool)
      (moves_edit_sameTexts item.2 item.1 file.pool)
  · exact moves_pure _

/-- No attribute has another body before those about nested classes are changed. -/
private theorem apply_steps (gives : Gives plan.apply before changed after) :
    ∃ middle last, Touches (fun _ _ => False) before middle ∧
      Gives plan.renameInners middle () last ∧ Gives plan.renameEnclosing last () after := by
  rw [apply] at gives
  split at gives
  -- Nothing is done for an empty plan, and neither of the last two steps would do anything.
  next empty =>
    obtain ⟨-, rfl⟩ := (gives_pure_iff _ _ _ _).mp gives
    obtain ⟨⟨-, noNames⟩, nowhere⟩ : (_ ∧ plan.innerNames = []) ∧ plan.enclosing = none := by
      simpa [isEmpty] using empty
    refine ⟨after, after, refl after, ?_, ?_⟩
    · rw [renameInners, noNames]
      exact ran_pure () after
    · rw [renameEnclosing, nowhere]
      exact ran_pure () after
  · simp only [gives_bind_iff, gives_pure_iff] at gives
    obtain ⟨_, first, classes, _, second, references, _, third, types, _, fourth, declarations,
      _, fifth, inners, _, last, enclosing, -, rfl⟩ := gives
    rw [renameClasses_eq] at classes
    rw [renameSymbols_eq] at references
    rw [retypeMethodTypes_eq] at types
    -- The passes write slots, and members keep their attributes when they are renamed.
    have passes : ∀ selected, Moves (Touches fun _ _ => False) (plan.pool.forM (pass selected)) :=
      fun selected => moves_forM fun item _ => moves_pass_touches selected item
    have members : Moves (Touches fun _ _ => False) plan.renameMembers :=
      moves_forM fun rename _ => moves_setMemberSymbol_touches _ _ _ _ _
    exact ⟨fourth, fifth, IsTrans.trans _ _ _ (classes.moved (passes _))
      (IsTrans.trans _ _ _ (references.moved (passes _))
        (IsTrans.trans _ _ _ (types.moved (passes _)) (declarations.moved members))), inners, enclosing⟩

/-- Only the attributes about nested classes have other bodies. -/
theorem apply_touches (indexed : before.pool.Indexed) (gives : Gives plan.apply before changed after) :
    Touches (fun site name => site = .wholeClass ∧
      (name = innerClassesName ∨ name = enclosingMethodName)) before after := by
  obtain ⟨middle, last, early, inners, enclosing⟩ := apply_steps gives
  have nested := renameInners_touches inners
  have around := renameEnclosing_touches
    (nested.keeps.indexed (early.keeps.indexed indexed)) enclosing
  refine IsTrans.trans _ _ _ (early.weaken fun _ _ => False.elim) (IsTrans.trans _ _ _
    (nested.weaken fun _ _ => And.imp_right .inl) (around.weaken fun _ _ => And.imp_right .inr))

/-- A class inside a method is afterwards inside what this method is called then. -/
theorem apply_enclosing (indexed : before.pool.Indexed) (planned : ofClass symbols before = .ok plan)
    (gives : Gives plan.apply before changed after) {body : Bytes} {place : EnclosingMethod}
    (there : before.bodyAt .wholeClass enclosingMethodName = some body)
    (parsed : enclosingMethod.parse enclosingMethodName body = .ok place) (inside : place.method ≠ 0) :
    ∃ owner symbol renamed body', before.pool.className place.owner = .ok owner ∧
      before.pool.nameAndType place.method = .ok symbol ∧
      renamedMember symbols .method owner symbol.1 symbol.2 = .ok renamed ∧
      after.bodyAt .wholeClass enclosingMethodName = some body' ∧
      Encloses place (renamed.getD symbol) after.pool body' := by
  obtain ⟨_, _, _, _, -, -, -, -, -, -, -, looked⟩ := (ofClass_ok_iff symbols before plan).mp planned
  have here : Attribute.body? before.pool enclosingMethodName before.attributes = some body := there
  simp only [ofAttribute, here, bind_ok_iff] at looked
  obtain ⟨_, parsed', looked⟩ := looked
  obtain rfl := Except.ok.inj (parsed.symm.trans parsed')
  rw [renamedEnclosing, if_neg inside] at looked
  simp only [bind_ok_iff, pure_ok_iff] at looked
  obtain ⟨owner, named, symbol, described, renamed, found, same⟩ := looked
  refine ⟨owner, symbol, renamed, ?_⟩
  obtain ⟨middle, last, early, inners, enclosing⟩ := apply_steps gives
  have nested := renameInners_touches inners
  have indexed' := nested.keeps.indexed (early.keeps.indexed indexed)
  -- Nothing that comes before it changes the body.
  have other : ¬ (Site.wholeClass = .wholeClass ∧ enclosingMethodName = innerClassesName) := by decide
  have still := nested.bodyAt other (early.bodyAt id there)
  cases renamed with
  | none =>
    rw [renameEnclosing, ← same] at enclosing
    obtain ⟨-, rfl⟩ := (gives_pure_iff _ _ _ _).mp enclosing
    exact ⟨body, named, described, found, still, place.method, parsed,
      nested.keeps.nameAndType (early.keeps.nameAndType described)⟩
  | some renamed =>
    obtain ⟨body', encloses, turned⟩ :=
      (renameEnclosing_rewrites same.symm indexed' enclosing).bodyAt still
    exact ⟨body', named, described, found, turned, encloses⟩

/-- What becomes of the record of a nested class: its simple name is the one that was worked out
while the class was untouched, or is left alone. -/
structure InnerRenamed (symbols : SymbolMap) (old new : ConstantPool) (record record' : InnerClass) :
    Prop where
  same : record.SameButName record'
  renamed : ∃ planned, renamedInner symbols old record = .ok planned ∧
    (planned = none → record' = record) ∧
    ∀ name, planned = some name → new.utf8 record'.simpleName = .ok name

theorem InnerRenamed.later {old new later : ConstantPool} {record record' : InnerClass}
    (renamed : InnerRenamed symbols old new record record') (keeps : Keeps new later) :
    InnerRenamed symbols old later record record' where
  same := renamed.same
  renamed := renamed.renamed.imp fun _ found =>
    ⟨found.1, found.2.1, fun name given => keeps.utf8 (found.2.2 name given)⟩

/-- What is planned for the records of nested classes: for each position at most one name, which was
worked out for the record there. -/
private structure PlansInners (symbols : SymbolMap) (pool : ConstantPool) (records : List InnerClass)
    (names : List (Nat × String)) : Prop where
  apart : names.Pairwise fun first second => first.1 < second.1
  planned : ∀ (position : Nat) record, records[position]? = some record →
    ∃ planned, renamedInner symbols pool record = .ok planned ∧
      ∀ name, planned = some name ↔ (position, name) ∈ names

private theorem plansInners {pool : ConstantPool} {records : List InnerClass}
    {names : List (Nat × String)} (looked : renamedInners symbols pool records = .ok names) :
    PlansInners symbols pool records names where
  apart := by
    refine ordered Prod.fst looked fun position record value _ look => ?_
    simp only [bind_ok_iff, pure_ok_iff, Option.map_eq_some_iff] at look
    obtain ⟨_, _, _, _, rfl⟩ := look
    rfl
  planned := by
    intro position record here
    obtain ⟨_, look, listed⟩ := looked_at looked here
    simp only [bind_ok_iff, pure_ok_iff] at look
    obtain ⟨planned, renames, rfl⟩ := look
    refine ⟨planned, renames, fun name => ⟨?_, fun member => ?_⟩⟩
    · rintro rfl
      exact listed _ rfl
    · -- The name was found for some record, which is the one at this position.
      obtain ⟨place, other, there, look⟩ := found_at looked member
      simp only [bind_ok_iff, pure_ok_iff, Option.map_eq_some_iff, Prod.mk.injEq] at look
      obtain ⟨_, renames', _, rfl, rfl, rfl⟩ := look
      obtain rfl := Option.some.inj (here.symm.trans there)
      exact Except.ok.inj (renames.symm.trans renames')

private theorem PlansInners.renamed {pool pool' : ConstantPool} {records found : List InnerClass}
    {names : List (Nat × String)} (plans : PlansInners symbols pool records names)
    (same : List.Forall₂ InnerClass.SameButName records found)
    (given : NamesGiven names pool' records found) :
    List.Forall₂ (InnerRenamed symbols pool pool') records found := by
  refine forall₂_of_getElem? same.length_eq.symm fun position record here => ?_
  obtain ⟨planned, renames, listed⟩ := plans.planned position record here
  obtain ⟨record', there, named, kept⟩ := given position record here
  obtain ⟨_, there', sameName⟩ := forall₂_getElem? same here
  obtain rfl := Option.some.inj (there.symm.trans there')
  refine ⟨record', there, sameName, planned, renames, ?_, ?_⟩
  · rintro rfl
    exact kept fun name member => by cases (listed name).mpr member
  · exact fun name given => named name ((listed name).mp given)

theorem apply_inners (indexed : before.pool.Indexed) (planned : ofClass symbols before = .ok plan)
    (gives : Gives plan.apply before changed after) {body : Bytes} {records : List InnerClass}
    (there : before.bodyAt .wholeClass innerClassesName = some body)
    (parsed : innerClasses.parse innerClassesName body = .ok records) :
    ∃ body' records', after.bodyAt .wholeClass innerClassesName = some body' ∧
      innerClasses.parse innerClassesName body' = .ok records' ∧
      List.Forall₂ (InnerRenamed symbols before.pool after.pool) records records' := by
  obtain ⟨_, _, _, _, -, -, -, -, -, -, looked, -⟩ := (ofClass_ok_iff symbols before plan).mp planned
  have here : Attribute.body? before.pool innerClassesName before.attributes = some body := there
  simp only [ofAttribute, here, bind_ok_iff] at looked
  obtain ⟨_, parsed', looked⟩ := looked
  obtain rfl := Except.ok.inj (parsed.symm.trans parsed')
  have plans := plansInners looked
  -- No other step of the plan is about this attribute.
  obtain ⟨middle, last, early, inners, enclosing⟩ := apply_steps gives
  have indexed' := early.keeps.indexed indexed
  have around := renameEnclosing_touches ((renameInners_touches inners).keeps.indexed indexed') enclosing
  have other : ¬ (Site.wholeClass = .wholeClass ∧ innerClassesName = enclosingMethodName) := by decide
  obtain ⟨body', turned, _, records', read, parsed', same, given⟩ :=
    renameInners_bodyAt plans.apart indexed' inners (early.bodyAt id there) parsed
  obtain rfl := Except.ok.inj (parsed.symm.trans read)
  exact ⟨body', records', around.bodyAt other turned, parsed',
    (plans.renamed same given).imp fun _ _ renamed => renamed.later around.keeps⟩

end

end JarRemap.RenamePlan
