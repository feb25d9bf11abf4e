import JarRemap.Proofs.ConstantPool.Edit

/-!
# What slots say

A slot of a pool mostly refers to others. What it says is what one reads when all of these are
followed.
-/

namespace JarRemap

/-- What a slot says. Constants that no name is read through say what they are. -/
inductive Meaning
  | class_ (name : String)
  | member (reference : MemberReference)
  | dynamic (bootstrap : Index) (name descriptor : String)
  | callSite (bootstrap : Index) (name descriptor : String)
  | methodType (descriptor : String)
  | other (constant : Constant)
deriving DecidableEq, Repr

/-- The parts of a reference to a field or method. -/
def Constant.reference? : Constant → Option (ReferenceKind × Index × Index)
  | fieldRef owner symbol => some (.field, owner, symbol)
  | methodRef owner symbol => some (.method, owner, symbol)
  | interfaceMethodRef owner symbol => some (.interfaceMethod, owner, symbol)
  | _ => none

namespace ConstantPool

def meaning (pool : ConstantPool) (index : Index) : Except Fault Meaning :=
  match pool.entries[index.toNat]? with
  | none => .error (.badIndex index .usable)
  | some (.classRef _) => .class_ <$> pool.className index
  | some (.fieldRef ..) | some (.methodRef ..) | some (.interfaceMethodRef ..) =>
    .member <$> pool.memberReference index
  | some (.dynamic bootstrap symbol) =>
    (fun (name, descriptor) => .dynamic bootstrap name descriptor) <$> pool.nameAndType symbol
  | some (.invokeDynamic bootstrap symbol) =>
    (fun (name, descriptor) => .callSite bootstrap name descriptor) <$> pool.nameAndType symbol
  | some (.methodType descriptor) => .methodType <$> pool.utf8 descriptor
  | some constant => .ok (.other constant)

theorem memberOf_ok_iff (pool : ConstantPool) (kind : ReferenceKind) (owner symbol : Index)
    (reference : MemberReference) :
    pool.memberOf kind owner symbol = .ok reference ↔ reference.kind = kind ∧
      pool.className owner = .ok reference.owner ∧
      pool.nameAndType symbol = .ok (reference.name, reference.descriptor) := by
  simp only [memberOf, bind_ok_iff, pure_ok_iff]
  constructor
  · rintro ⟨_, named, _, described, rfl⟩
    exact ⟨rfl, named, described⟩
  · rintro ⟨rfl, named, described⟩
    exact ⟨_, named, _, described, rfl⟩

theorem memberReference_of_entry {pool : ConstantPool} {index owner symbol : Index}
    {constant : Constant} {kind : ReferenceKind} (here : pool.entries[index.toNat]? = some constant)
    (parts : constant.reference? = some (kind, owner, symbol)) :
    pool.memberReference index = pool.memberOf kind owner symbol := by
  have usable : constant ≠ .unusable := by
    rintro rfl
    cases parts
  rw [memberReference, (lookup_ok_iff _ _ _).mpr ⟨here, usable⟩]
  cases constant <;> simp only [Constant.reference?, reduceCtorEq, Option.some.injEq, Prod.mk.injEq]
    at parts <;> obtain ⟨rfl, rfl, rfl⟩ := parts <;> rfl

theorem meaning_reference {pool : ConstantPool} {index owner symbol : Index}
    {constant : Constant} {kind : ReferenceKind} (here : pool.entries[index.toNat]? = some constant)
    (parts : constant.reference? = some (kind, owner, symbol)) :
    pool.meaning index = .member <$> pool.memberOf kind owner symbol := by
  rw [← memberReference_of_entry here parts, meaning, here]
  cases constant <;> simp [Constant.reference?] at parts <;> rfl

theorem withSymbol_own {constant : Constant} {kind : ReferenceKind} {owner symbol : Index}
    (parts : constant.reference? = some (kind, owner, symbol)) :
    withSymbol symbol constant = some constant := by
  cases constant <;> simp [Constant.reference?] at parts <;> obtain ⟨-, -, rfl⟩ := parts <;> rfl

/-- A reference that was given another symbol has its kind and owner still. -/
theorem reference?_of_withSymbol {old new : Constant} {kind : ReferenceKind}
    {owner symbol place : Index} (parts : old.reference? = some (kind, owner, symbol))
    (pointed : withSymbol place old = some new) : new.reference? = some (kind, owner, place) := by
  cases old <;> simp [Constant.reference?] at parts <;> obtain ⟨rfl, rfl, rfl⟩ := parts <;>
    obtain rfl := Option.some.inj pointed <;> rfl

theorem withSymbol_injective {old new : Constant} {first second : Index}
    (one : withSymbol first old = some new) (other : withSymbol second old = some new) :
    first = second := by
  cases old <;> simp only [withSymbol, reduceCtorEq, Option.some.injEq] at one other <;>
    subst one <;> simp_all

theorem className_of_entry {pool : ConstantPool} {index text : Index}
    (here : pool.entries[index.toNat]? = some (.classRef text)) :
    pool.className index = pool.utf8 text := by
  rw [className, (lookup_ok_iff _ _ _).mpr ⟨here, by simp⟩]
  rfl

theorem entry_of_className {pool : ConstantPool} {index : Index} {name : String}
    (named : pool.className index = .ok name) :
    ∃ text, pool.entries[index.toNat]? = some (.classRef text) := by
  obtain ⟨text, found, -⟩ := (className_ok_iff _ _ _).mp named
  exact ⟨text, ((lookup_ok_iff _ _ _).mp found).1⟩

theorem meaning_class {pool : ConstantPool} {index : Index} {name : String}
    (named : pool.className index = .ok name) : pool.meaning index = .ok (.class_ name) := by
  obtain ⟨text, here⟩ := entry_of_className named
  rw [meaning, here]
  simp only [named]
  rfl

section

variable {pool : ConstantPool} {index slot bootstrap : Index} {name descriptor : String}

theorem meaning_dynamic (here : pool.entries[index.toNat]? = some (.dynamic bootstrap slot))
    (described : pool.nameAndType slot = .ok (name, descriptor)) :
    pool.meaning index = .ok (.dynamic bootstrap name descriptor) := by
  simp only [meaning, here, described]
  rfl

theorem meaning_callSite (here : pool.entries[index.toNat]? = some (.invokeDynamic bootstrap slot))
    (described : pool.nameAndType slot = .ok (name, descriptor)) :
    pool.meaning index = .ok (.callSite bootstrap name descriptor) := by
  simp only [meaning, here, described]
  rfl

theorem meaning_methodType (here : pool.entries[index.toNat]? = some (.methodType slot))
    (described : pool.utf8 slot = .ok descriptor) :
    pool.meaning index = .ok (.methodType descriptor) := by
  simp only [meaning, here, described]
  rfl

end

theorem entry_of_memberReference {pool : ConstantPool} {index : Index} {reference : MemberReference}
    (read : pool.memberReference index = .ok reference) :
    ∃ constant kind owner symbol, pool.entries[index.toNat]? = some constant ∧
      constant.reference? = some (kind, owner, symbol) := by
  rw [memberReference, bind_ok_iff] at read
  obtain ⟨constant, found, read⟩ := read
  refine ⟨constant, ?_⟩
  rw [((lookup_ok_iff _ _ _).mp found).1]
  cases constant <;> first | exact ⟨_, _, _, rfl, rfl⟩ | cases read

/-- What is read through one kind of constant never says what another kind says. -/
private theorem map_ne_ok {α : Type} {make : α → Meaning} {meaning : Meaning} (read : Except Fault α)
    (different : ∀ value, make value ≠ meaning) : make <$> read ≠ .ok meaning := by
  intro same
  cases read with
  | error fault => cases same
  | ok value => exact different value (Except.ok.inj same)

/-- A slot can be read as a reference to a member exactly if it says that it is one. -/
theorem meaning_member_iff (pool : ConstantPool) (index : Index) (reference : MemberReference) :
    pool.meaning index = .ok (.member reference) ↔ pool.memberReference index = .ok reference := by
  constructor
  · intro meant
    cases here : pool.entries[index.toNat]? with
    | none => simp [meaning, here] at meant
    | some constant =>
      cases parts : constant.reference? with
      | some found =>
        obtain ⟨kind, owner, symbol⟩ := found
        rw [meaning_reference here parts, ← memberReference_of_entry here parts] at meant
        cases read : pool.memberReference index <;> rw [read] at meant <;> cases meant
        rfl
      | none =>
        rw [meaning, here] at meant
        cases constant <;> simp only [Constant.reference?, reduceCtorEq] at parts <;>
          first
          | exact absurd meant (map_ne_ok _ (by simp))
          | cases meant
  · intro read
    obtain ⟨constant, kind, owner, symbol, here, parts⟩ := entry_of_memberReference read
    rw [meaning_reference here parts, ← memberReference_of_entry here parts, read]
    rfl

theorem meaning_methodType_iff (pool : ConstantPool) (index : Index) (descriptor : String) :
    pool.meaning index = .ok (.methodType descriptor) ↔
      ∃ text, pool.lookup index = .ok (.methodType text) ∧ pool.utf8 text = .ok descriptor := by
  simp only [lookup_ok_iff, ne_eq, reduceCtorEq, not_false_eq_true, and_true]
  constructor
  · intro meant
    cases here : pool.entries[index.toNat]? with
    | none => simp [meaning, here] at meant
    | some constant =>
      rw [meaning, here] at meant
      cases constant with
      | methodType text =>
        cases read : pool.utf8 text <;> simp only [read] at meant <;> cases meant
        exact ⟨text, rfl, read⟩
      | _ =>
        first
        | exact absurd meant (map_ne_ok _ (by simp))
        | cases meant
  · rintro ⟨text, here, read⟩
    exact meaning_methodType here read

end ConstantPool

end JarRemap
