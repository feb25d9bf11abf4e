import JarRemap.Proofs.ConstantPool.Calls

/-!
# Asking for the same thing again

What is appended comes behind everything else, so the first slot with a constant and the first class
with a name index stay the first. Whatever was asked for once is therefore found in the same place
for ever after, and nothing is appended for it again.
-/

namespace JarRemap.ConstantPool

/-! ## What is found first -/

section

variable {old new : ConstantPool} {constant : Constant} {index name : Index}

private theorem slotOf?_appended (pool : ConstantPool) (constant other : Constant) :
    (pool.appended other).slotOf? constant = (pool.slotOf? constant).or
      ((other.slots.findIdx? (· == constant)).map fun behind =>
        UInt16.ofNat (behind + pool.entries.size)) := by
  have entries : (pool.appended other).entries = pool.entries ++ other.slots.toArray :=
    Array.ext' (by rw [appended, Array.toList_appendList, Array.toList_append])
  rw [slotOf?, entries, Array.findIdx?_append, Option.map_or, Option.map_map, ← List.findIdx?_toArray]
  rfl

private theorem slotOf?_later (grows : Grows old new) (found : old.slotOf? constant = some index) :
    new.slotOf? constant = some index := by
  -- Whatever was pushed since stands behind, where a search that found something does not look.
  induction grows with
  | refl => exact found
  | tail _ pushed ih =>
    obtain ⟨other, -, -, rfl⟩ := pushed
    rw [slotOf?_appended, ih, Option.some_or]

private theorem classSlot?_later (grows : Grows old new) (found : old.classSlot? name = some index) :
    new.classSlot? name = some index := by
  induction grows with
  | refl => exact found
  | @tail pool _ _ pushed ih =>
    obtain ⟨other, -, -, rfl⟩ := pushed
    -- Only a class is remembered.
    cases other <;> try exact ih
    next text =>
      obtain ⟨entry, first, rfl⟩ := Option.map_eq_some_iff.mp ih
      rw [classSlot?, appended, classesWith, Array.find?_push, first]
      rfl

/-- A constant that was pushed because no slot held it is found in the slot that it was given. -/
private theorem slotOf?_pushed (absent : old.slotOf? constant = none)
    (gives : Gives (push constant) old index new) : new.slotOf? constant = some index := by
  obtain ⟨-, rfl, rfl⟩ := (gives_push_iff _ _ _ _).mp gives
  obtain ⟨behind, slots⟩ := slots_cons constant
  rw [slotOf?_appended, absent, slots, List.findIdx?_cons, beq_self_eq_true]
  simp

private theorem classSlot?_pushed (absent : old.classSlot? name = none)
    (gives : Gives (push (.classRef name)) old index new) : new.classSlot? name = some index := by
  obtain ⟨-, rfl, rfl⟩ := (gives_push_iff _ _ _ _).mp gives
  rw [classSlot?, Option.map_eq_none_iff] at absent
  rw [classSlot?, appended, classesWith, Array.find?_push, absent]
  simp

end

/-! ## Edits that change nothing -/

/-- Of this pool, and of all that it grows into, the edit gets the value and changes nothing. -/
def Known {α : Type} (pool : ConstantPool) (edit : PoolEdit α) (value : α) : Prop :=
  ∀ later, Grows pool later → Gives edit later value later

section

variable {α β : Type} {pool grown before after : ConstantPool} {index : Index}

theorem Known.later {edit : PoolEdit α} {value : α} (known : Known pool edit value)
    (grows : Grows pool grown) : Known grown edit value :=
  fun later grows' => known later (grows.trans grows')

private theorem Known.bind {edit : PoolEdit α} {next : α → PoolEdit β} {value : α} {result : β}
    (first : Known pool edit value) (second : Known pool (next value) result) :
    Known pool (edit >>= next) result := fun later grows =>
  (gives_bind_iff _ _ _ _ _).mpr ⟨value, later, first later grows, second later grows⟩

private theorem known_of_slotOf? {constant : Constant} (found : pool.slotOf? constant = some index) :
    Known pool (intern constant) index := by
  intro later grows
  refine (gives_bind_iff _ _ _ _ _).mpr ⟨later, later, rfl, ?_⟩
  rw [slotOf?_later grows found]
  rfl

private theorem known_intern {constant : Constant} (gives : Gives (intern constant) before index after) :
    Known after (intern constant) index := by
  obtain ⟨pool, middle, got, rest⟩ := (gives_bind_iff _ _ _ _ _).mp gives
  obtain ⟨rfl, rfl⟩ := (gives_get_iff _ _ _).mp got
  split at rest
  next slot found =>
    obtain ⟨rfl, rfl⟩ := (gives_pure_iff _ _ _ _).mp rest
    exact known_of_slotOf? found
  next absent => exact known_of_slotOf? (slotOf?_pushed absent rest)

theorem known_utf8Index {text : String} (gives : Gives (utf8Index text) before index after) :
    Known after (utf8Index text) index := known_intern gives

/-- A text that some slot holds. -/
theorem known_of_utf8 {text : String} (read : pool.utf8 index = .ok text) :
    ∃ first, Known pool (utf8Index text) first := by
  obtain ⟨here, -⟩ := (lookup_ok_iff _ _ _).mp ((utf8_ok_iff _ _ _).mp read)
  cases found : pool.slotOf? (.utf8 text) with
  | some first => exact ⟨first, known_of_slotOf? found⟩
  | none =>
    -- Then no slot would hold it.
    rw [slotOf?, Option.map_eq_none_iff, Array.findIdx?_eq_none_iff] at found
    have different := found _ (Array.mem_of_getElem? here)
    simp at different

/-- The class that is returned is the one that is remembered under the name index. -/
private theorem classSlot?_of_gives {text : Index}
    (gives : Gives (do
      match (← get).classSlot? text with
      | some slot => return slot
      | none => push (.classRef text) : PoolEdit Index) before index after) :
    Grows before after ∧ after.classSlot? text = some index := by
  obtain ⟨pool, middle, got, rest⟩ := (gives_bind_iff _ _ _ _ _).mp gives
  obtain ⟨rfl, rfl⟩ := (gives_get_iff _ _ _).mp got
  split at rest
  next slot found =>
    obtain ⟨rfl, rfl⟩ := (gives_pure_iff _ _ _ _).mp rest
    exact ⟨.refl, found⟩
  next absent =>
    exact ⟨rest.moved (Growth.push (by simp [Constant.Plain])), classSlot?_pushed absent rest⟩

theorem known_classIndex {name : String} (gives : Gives (classIndex name) before index after) :
    Known after (classIndex name) index := by
  obtain ⟨text, middle, named, rest⟩ := (gives_bind_iff _ _ _ _ _).mp gives
  obtain ⟨grows, found⟩ := classSlot?_of_gives rest
  refine ((known_utf8Index named).later grows).bind fun later grows' => ?_
  -- The name is in its old slot, so what is remembered for that slot decides.
  refine (gives_bind_iff _ _ _ _ _).mpr ⟨later, later, rfl, ?_⟩
  rw [classSlot?_later grows' found]
  rfl

theorem known_nameAndTypeIndex {name descriptor : String}
    (gives : Gives (nameAndTypeIndex name descriptor) before index after) :
    Known after (nameAndTypeIndex name descriptor) index := by
  simp only [nameAndTypeIndex, gives_bind_iff] at gives
  obtain ⟨first, named, names, second, described, describes, interned⟩ := gives
  have grows : Grows named described := describes.moved (moves_utf8Index descriptor)
  have grows' : Grows described after :=
    interned.moved (moves_intern_of (Growth.push (by simp [Constant.Plain])))
  exact ((known_utf8Index names).later (grows.trans grows')).bind
    (((known_utf8Index describes).later grows').bind (known_intern interned))

end

end JarRemap.ConstantPool
