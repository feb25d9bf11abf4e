import JarRemap.Proofs.ConstantPool.Edit
import JarRemap.RenamePlan

/-!
# What a plan contains

Every slot of the pool and every member is looked at, and the plan has what was found for it, once
and for nothing else.
-/

namespace JarRemap.RenamePlan

/-! ## Collecting -/

section

variable {α β : Type} {look : Nat → α → Except Fault (Option β)} {items : List α} {found : List β}

private theorem collect_ok_iff :
    collect look items = .ok found ↔ ∃ results,
      List.Forall₂ (fun item result => look item.2 item.1 = .ok result) items.zipIdx results ∧
        results.filterMap id = found := by
  simp only [collect, bind_ok_iff, pure_ok_iff, mapM_ok_iff]

theorem looked_at (collected : collect look items = .ok found) {position : Nat} {item : α}
    (here : items[position]? = some item) :
    ∃ result, look position item = .ok result ∧ ∀ value, result = some value → value ∈ found := by
  obtain ⟨results, pairs, rfl⟩ := collect_ok_iff.mp collected
  have here' : items.zipIdx[position]? = some (item, position) := by
    simp [List.getElem?_zipIdx, here]
  obtain ⟨result, there, looked⟩ := forall₂_getElem? pairs here'
  refine ⟨result, looked, ?_⟩
  rintro value rfl
  exact List.mem_filterMap.mpr ⟨_, List.mem_of_getElem? there, rfl⟩

theorem found_at (collected : collect look items = .ok found) {value : β} (member : value ∈ found) :
    ∃ position item, items[position]? = some item ∧ look position item = .ok (some value) := by
  obtain ⟨results, pairs, rfl⟩ := collect_ok_iff.mp collected
  obtain ⟨_, member, rfl⟩ := List.mem_filterMap.mp member
  obtain ⟨position, there⟩ := List.mem_iff_getElem?.mp member
  obtain ⟨⟨item, place⟩, here, looked⟩ := forall₂_getElem? pairs.flip there
  simp only [List.getElem?_zipIdx, Option.map_eq_some_iff, Prod.mk.injEq, Nat.zero_add] at here
  obtain ⟨_, here, rfl, rfl⟩ := here
  exact ⟨position, _, here, looked⟩

private theorem ordered_from (key : β → Nat) (start : Nat) (items : List α)
    (results : List (Option β))
    (pairs : List.Forall₂ (fun item result => look item.2 item.1 = .ok result)
      (items.zipIdx start) results)
    (keyed : ∀ position item value, position < start + items.length →
      look position item = .ok (some value) → key value = position) :
    (results.filterMap id).Pairwise (key · < key ·) ∧
      ∀ value ∈ results.filterMap id, start ≤ key value := by
  -- The positions go up from the start of the list, so what is found later has a greater key.
  induction items generalizing start results with
  | nil =>
    cases pairs
    simp
  | cons item items ih =>
    rw [List.zipIdx_cons] at pairs
    cases pairs with
    | @cons _ result _ results looked others =>
      obtain ⟨ordered, later⟩ := ih (start + 1) results others fun position item value within =>
        keyed position item value (by rw [List.length_cons]; omega)
      cases result with
      | none =>
        exact ⟨ordered, fun value member => Nat.le_of_succ_le (later value member)⟩
      | some value =>
        have here := keyed start item value (by rw [List.length_cons]; omega) looked
        simp only [List.filterMap_cons, id, List.pairwise_cons, List.mem_cons]
        refine ⟨⟨fun other member => ?_, ordered⟩, ?_⟩
        · have behind := later other member
          omega
        · rintro other (rfl | member)
          · omega
          · exact Nat.le_of_succ_le (later other member)

/-- What is found stands in the order of the items it was found for. -/
theorem ordered (key : β → Nat) (collected : collect look items = .ok found)
    (keyed : ∀ position item value, position < items.length →
      look position item = .ok (some value) → key value = position) :
    found.Pairwise (key · < key ·) := by
  obtain ⟨results, pairs, rfl⟩ := collect_ok_iff.mp collected
  exact (ordered_from key 0 items results pairs (by simpa using keyed)).1

end

/-! ## Slots and members -/

section

variable {symbols : SymbolMap} {pool : ConstantPool} {bootstrap : List Attribute.BootstrapMethod}
  {renames : List (Index × PoolRename)}

theorem slot_looked_at (planned : renamedConstants symbols pool bootstrap = .ok renames)
    {index : Index} {constant : Constant} (here : pool.entries[index.toNat]? = some constant) :
    ∃ result, renamedConstant symbols pool bootstrap index constant = .ok result ∧
      ∀ rename, result = some rename → (index, rename) ∈ renames := by
  rw [← Array.getElem?_toList] at here
  obtain ⟨_, looked, found⟩ := looked_at planned here
  simp only [bind_ok_iff, pure_ok_iff, UInt16.ofNat_toNat] at looked
  obtain ⟨result, looked, rfl⟩ := looked
  refine ⟨result, looked, ?_⟩
  rintro rename rfl
  exact found _ rfl

private theorem slot_look {slot : Nat} {constant : Constant} {found : Index × PoolRename}
    (looked : (do
      let renamed ← renamedConstant symbols pool bootstrap (UInt16.ofNat slot) constant
      return renamed.map fun rename => (UInt16.ofNat slot, rename)) = .ok (some found)) :
    found.1 = UInt16.ofNat slot ∧
      renamedConstant symbols pool bootstrap found.1 constant = .ok (some found.2) := by
  simp only [bind_ok_iff, pure_ok_iff, Option.map_eq_some_iff] at looked
  obtain ⟨_, looked, rename, rfl, rfl⟩ := looked
  exact ⟨rfl, looked⟩

theorem slot_found_at (indexed : pool.Indexed)
    (planned : renamedConstants symbols pool bootstrap = .ok renames) {index : Index}
    {rename : PoolRename} (member : (index, rename) ∈ renames) :
    ∃ constant, pool.entries[index.toNat]? = some constant ∧
      renamedConstant symbols pool bootstrap index constant = .ok (some rename) := by
  obtain ⟨slot, constant, here, looked⟩ := found_at planned member
  obtain ⟨rfl, renamed⟩ := slot_look looked
  rw [Array.getElem?_toList] at here
  obtain ⟨within, -⟩ := Array.getElem?_eq_some_iff.mp here
  -- A slot is numbered by its position as long as positions are not too large for indices.
  rw [ConstantPool.Indexed, ConstantPool.maxSlots] at indexed
  refine ⟨constant, ?_, renamed⟩
  rw [UInt16.toNat_ofNat', Nat.mod_eq_of_lt (by omega)]
  exact here

theorem slots_ordered (indexed : pool.Indexed)
    (planned : renamedConstants symbols pool bootstrap = .ok renames) :
    renames.Pairwise (fun first second => first.1.toNat < second.1.toNat) := by
  refine ordered (fun found => found.1.toNat) planned fun slot constant found within looked => ?_
  rw [Array.length_toList] at within
  rw [ConstantPool.Indexed, ConstantPool.maxSlots] at indexed
  obtain ⟨same, -⟩ := slot_look looked
  rw [same, UInt16.toNat_ofNat', Nat.mod_eq_of_lt (by omega)]

end

section

variable {symbols : SymbolMap} {file : ClassFile} {owner : String} {kind : MemberKind}
  {renames : List MemberRename}

theorem member_looked_at (planned : renamedMembers symbols file owner kind = .ok renames)
    {position : Nat} {member : Member} (here : (file.members kind)[position]? = some member) :
    ∃ symbol result, file.symbol member = .ok symbol ∧
      renamedMember symbols kind owner symbol.1 symbol.2 = .ok result ∧
      ∀ renamed, result = some renamed → ⟨kind, position, renamed.1, renamed.2⟩ ∈ renames := by
  obtain ⟨_, looked, found⟩ := looked_at planned here
  simp only [bind_ok_iff, pure_ok_iff] at looked
  obtain ⟨symbol, read, result, renamed, rfl⟩ := looked
  refine ⟨symbol, result, read, renamed, ?_⟩
  rintro renamed rfl
  exact found _ rfl

theorem member_found_at (planned : renamedMembers symbols file owner kind = .ok renames)
    {rename : MemberRename} (found : rename ∈ renames) :
    rename.kind = kind ∧ ∃ member symbol, (file.members kind)[rename.position]? = some member ∧
      file.symbol member = .ok symbol ∧ renamedMember symbols kind owner symbol.1 symbol.2 =
        .ok (some (rename.name, rename.descriptor)) := by
  obtain ⟨position, item, here, looked⟩ := found_at planned found
  simp only [bind_ok_iff, pure_ok_iff, Option.map_eq_some_iff] at looked
  obtain ⟨symbol, read, _, renamed, _, rfl, rfl⟩ := looked
  exact ⟨rfl, item, symbol, here, read, renamed⟩

theorem members_ordered (planned : renamedMembers symbols file owner kind = .ok renames) :
    renames.Pairwise (fun first second => first.position < second.position) := by
  refine ordered MemberRename.position planned fun position item found _ looked => ?_
  simp only [bind_ok_iff, pure_ok_iff, Option.map_eq_some_iff] at looked
  obtain ⟨_, _, _, _, _, _, rfl⟩ := looked
  rfl

end

/-- What makes up a plan. -/
theorem ofClass_ok_iff (symbols : SymbolMap) (file : ClassFile) (plan : RenamePlan) :
    ofClass symbols file = .ok plan ↔ ∃ owner bootstrap fields methods,
      file.name = .ok owner ∧
      ofAttribute file Attribute.bootstrapMethodsName Attribute.bootstrapMethods [] .ok =
        .ok bootstrap ∧
      renamedConstants symbols file.pool bootstrap = .ok plan.pool ∧
      renamedMembers symbols file owner .field = .ok fields ∧
      renamedMembers symbols file owner .method = .ok methods ∧
      plan.members = fields ++ methods ∧
      ofAttribute file Attribute.innerClassesName Attribute.innerClasses []
        (renamedInners symbols file.pool) = .ok plan.innerNames ∧
      ofAttribute file Attribute.enclosingMethodName Attribute.enclosingMethod none
        (renamedEnclosing symbols file.pool) = .ok plan.enclosing := by
  simp only [ofClass, bind_ok_iff, pure_ok_iff]
  constructor
  · rintro ⟨owner, named, bootstrap, booted, pool, slots, fields, found, methods, found', inner, nested,
      enclosing, around, rfl⟩
    exact ⟨owner, bootstrap, fields, methods, named, booted, slots, found, found', rfl, nested, around⟩
  · rintro ⟨owner, bootstrap, fields, methods, named, booted, slots, found, found', members, nested,
      around⟩
    refine ⟨owner, named, bootstrap, booted, _, slots, fields, found, methods, found', _, nested, _,
      around, ?_⟩
    rw [← members]

end JarRemap.RenamePlan
