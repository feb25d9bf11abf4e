import JarRemap.Proofs.Structure.Slots

/-!
# Generated parameter names

Every method with a generated name whose parameters have none gets an attribute with one name for each
of them, and nothing else is changed. Each turn adds texts to the pool, so a method may come to its turn
with an attribute whose name has been added since: it is passed over, as if it had had its names before.
-/

namespace JarRemap.ParameterNames

open ClassFile ConstantPool Attribute

/-! ## Names -/

section

variable {number : List Char} {access : AccessFlags} {parameters : List (List Char)}

theorem nameOf_injective : Function.Injective (nameOf number) := by
  intro slot other same
  simp only [nameOf, String.append_left_inj, String.append_right_inj, Nat.toString_eq_ofList_toDigits,
    String.ofList_inj] at same
  -- The digits of a number say what it is.
  rw [← Nat.ofDigitChars_ten_toDigits (n := slot), same, Nat.ofDigitChars_ten_toDigits]

/-- The name of the attribute begins with another letter. -/
theorem nameOf_ne (number : List Char) (slot : Nat) : nameOf number slot ≠ methodParametersName := by
  intro same
  have first := congrArg (fun text => text.toList.head?) same
  simp [nameOf, methodParametersName] at first

/-- Every parameter takes a slot, so the next one is in a later slot. -/
theorem slotOf_lt {position other : Nat} (before : position < other) (within : other < parameters.length) :
    slotOf access parameters position < slotOf access parameters other := by
  have own : 0 < slotsOfText parameters[position] := by
    rw [slotsOfText]
    split <;> omega
  have next : slotOf access parameters (position + 1) =
      slotOf access parameters position + slotsOfText parameters[position] :=
    slotOf_succ (List.getElem?_eq_getElem (before.trans within))
  have rest : slotOf access parameters (position + 1) ≤ slotOf access parameters other :=
    slotOf_mono before
  omega

theorem nodup_slotNames : (slotNames number access parameters).Nodup := by
  refine List.pairwise_map.mpr (List.pairwise_lt_range.imp_of_mem fun _ member less same => ?_)
  exact absurd (nameOf_injective same) (slotOf_lt less (List.mem_range.mp member)).ne

end

/-! ## One turn -/

/-- The method at the position has one more attribute, with these names for its parameters. -/
def Gains (after : ClassFile) (position : Nat) (method : Member) (found : List String) : Prop :=
  ∃ item rows,
    after.methods[position]? = some { method with attributes := method.attributes ++ [item] } ∧
      after.pool.utf8 item.name = .ok methodParametersName ∧
      methodParameters.parse methodParametersName item.body = .ok rows ∧
      List.Forall₂ (fun text (row : MethodParameter) =>
        after.pool.utf8 row.name = .ok text ∧ row.access = .empty) found rows

/-- Other methods and a pool that grows make no difference to that. -/
theorem Gains.later {old new : ClassFile} {position : Nat} {method : Member} {found : List String}
    (gains : Gains old position method found) (grows : Grows old.pool new.pool)
    (same : new.methods[position]? = old.methods[position]?) : Gains new position method found := by
  obtain ⟨item, rows, there, named, parsed, told⟩ := gains
  exact ⟨item, rows, same.trans there, grows.extends.utf8 named, parsed,
    told.imp fun _ _ => And.imp_left grows.extends.utf8⟩

/-- From one position up to another, the pool grows by texts that it did not have, and only methods
there are changed. If any is, the name of their new attribute is in the pool. -/
structure Passes (first last : Nat) (old new : ClassFile) : Prop where
  pool : Grows old.pool new.pool
  texts : SameTexts old.pool new.pool
  rest : new = { old with pool := new.pool, methods := new.methods }
  outside : ∀ position, position < first ∨ last ≤ position →
    new.methods[position]? = old.methods[position]?
  quiet : new = old ∨
    (∃ position, first ≤ position ∧ position < last ∧
      new.methods[position]? ≠ old.methods[position]?) ∧
      ∃ index, new.pool.utf8 index = .ok methodParametersName

section

variable {old middle new : ClassFile} {first last position count : Nat} {changed : Bool}
  {method : Member} {found : List String} {pool : ConstantPool}

theorem Passes.refl (first last : Nat) (file : ClassFile) : Passes first last file file :=
  ⟨.refl, ⟨fun _ _ => Iff.rfl⟩, rfl, fun _ _ => rfl, .inl rfl⟩

theorem Passes.trans (early : Passes first position old middle) (late : Passes position last middle new)
    (before : first ≤ position) (behind : position ≤ last) : Passes first last old new where
  pool := early.pool.trans late.pool
  texts := IsTrans.trans _ _ _ early.texts late.texts
  rest := by rw [late.rest, early.rest]
  outside place apart := by
    rw [late.outside place (by omega), early.outside place (by omega)]
  quiet := by
    -- Neither run undoes what the other one changed, as they are at different positions.
    rcases late.quiet with rfl | ⟨⟨place, above, below, different⟩, text⟩
    · exact early.quiet.imp_right (And.imp_left fun ⟨place, above, below, different⟩ =>
        ⟨place, above, by omega, different⟩)
    · refine .inr ⟨⟨place, by omega, below, ?_⟩, text⟩
      rwa [← early.outside place (.inr above)]

private theorem moves_parameters {related : ConstantPool → ConstantPool → Prop}
    [IsPreorder ConstantPool related] (moves : ∀ text ∈ found, Moves related (utf8Index text)) :
    Moves (InPool related) (found.mapM fun text => do
      return (⟨← Injection.inPool (utf8Index text), .empty⟩ : MethodParameter) :
        Injection (List MethodParameter)) :=
  moves_mapM_of_mem fun text member =>
    (Injection.moves_ofEdit (moves_inPool (moves text member))).bind fun _ => moves_pure _

private theorem getElem?_appended (here : old.methods[position]? = some method) (item : Attribute) :
    (withAttributesAt { old with pool := pool } (.member .method position)
      (method.attributes ++ [item])).methods[position]? =
      some { method with attributes := method.attributes ++ [item] } := by
  change (old.methods.modify position _)[position]? = _
  rw [List.getElem?_modify_eq, here]
  rfl

private theorem passes_appended (here : old.methods[position]? = some method) {item : Attribute}
    (grows : Grows old.pool pool) (texts : SameTexts old.pool pool)
    (named : pool.utf8 item.name = .ok methodParametersName) :
    Passes position (position + 1) old (withAttributesAt { old with pool := pool }
      (.member .method position) (method.attributes ++ [item])) where
  pool := grows
  texts := texts
  rest := rfl
  outside _ apart := List.getElem?_modify_ne _ _ (by omega)
  quiet := by
    refine .inr ⟨⟨position, Nat.le_refl _, Nat.lt_succ_self _, ?_⟩, item.name, named⟩
    rw [getElem?_appended here, here]
    intro same
    have lengths := congrArg Member.attributes (Option.some.inj same)
    simp at lengths

/-- The names are asked for first, which gives no attribute the name of the new one. -/
theorem putParameters_gains {base : ConstantPool} (ready : Ready base old.pool)
    (here : old.methods[position]? = some method)
    (bare : Absent old.pool methodParametersName method.attributes)
    (other : ∀ text ∈ found, text ≠ methodParametersName)
    (gives : Gives (Injection.putParameters (.member .method position) found) old changed new) :
    Passes position (position + 1) old new ∧ Gains new position method found := by
  obtain ⟨rows, middle, interned, puts⟩ := (gives_bind_iff _ _ _ _ _).mp gives
  obtain ⟨asked, named⟩ := Injection.parameters_gives ready interned
  have texts : InPool SameTexts old middle := interned.moved (moves_parameters fun _ _ => moves_utf8Index _)
  have notAdded : InPool (NotAdded methodParametersName) old middle :=
    interned.moved (moves_parameters fun text member => moves_utf8Index_notAdded (other text member))
  obtain ⟨body, _, reads, puts⟩ := (gives_bind_iff _ _ _ _ _).mp puts
  obtain ⟨encoded, same⟩ := (gives_read_iff _ _ _ _).mp ((Injection.gives_ofEdit_iff _ _ _ _).mp reads)
  rw [same] at puts
  obtain ⟨pool, rfl⟩ : ∃ pool, middle = { old with pool := pool } := ⟨_, asked.rest⟩
  have list : attributeList { old with pool := pool } (.member .method position) = method.attributes := by
    rw [attributeList_member, members, here]
    rfl
  have there : (attributesAt { old with pool := pool } (.member .method position)).isSome := by
    rw [attributesAt, members, here]
    rfl
  have bare' : Absent pool methodParametersName
      (attributeList { old with pool := pool } (.member .method position)) := fun item member read =>
    bare item (list ▸ member) (notAdded.pool _ read)
  -- So the attribute comes last, in a pool that has got its name.
  obtain ⟨-, index, grown, asks, rfl⟩ := (Injection.gives_put_absent_iff there bare').mp puts
  have read := utf8Index_reads (ready.later asked.pool).indexed asks
  have grows : Grows pool grown := asks.moved (moves_utf8Index _)
  have texts' : SameTexts pool grown := asks.moved (moves_utf8Index _)
  rw [list]
  exact ⟨passes_appended here (asked.pool.trans grows) (IsTrans.trans _ _ _ texts.pool texts') read,
    ⟨index, body⟩, rows, getElem?_appended here _, read,
    (methodParameters_exact.parse_ok_iff _ _ _).mpr encoded,
    named.imp fun _ _ => And.imp_left grows.extends.utf8⟩

/-- A method without parameter names gets them, and any other is left as it is. -/
theorem generateAt_gains {base : ConstantPool} (ready : Ready base old.pool)
    (here : old.methods[position]? = some method)
    (gives : Gives (generateAt position) old changed new) :
    ((∀ number parameters, ¬ Unnamed old method number parameters) ∧ new = old) ∨
      (∃ number parameters, Unnamed old method number parameters) ∧
        Passes position (position + 1) old new ∧ ∀ number parameters,
          Unnamed old method number parameters →
            Gains new position method (slotNames number method.access parameters) := by
  rcases (Injection.gives_generateAt_iff here).mp gives with ⟨wants, -, same⟩ | ⟨found, wants, puts⟩
  · refine .inl ⟨fun number parameters unnamed => ?_, same⟩
    rw [unnamed.wanted_eq] at wants
    split at wants <;> cases wants
  · have named : ∀ number parameters, Unnamed old method number parameters →
        found = slotNames number method.access parameters := fun number parameters unnamed => by
      have same := wants.symm.trans unnamed.wanted_eq
      split at same
      · exact Option.some.inj (Except.ok.inj same)
      · cases same
    obtain ⟨number, parameters, unnamed, -⟩ := wanted_eq_some_iff.mp wants
    have other : ∀ text ∈ found, text ≠ methodParametersName := fun text member => by
      rw [named number parameters unnamed] at member
      obtain ⟨_, -, rfl⟩ := List.mem_map.mp member
      exact nameOf_ne _ _
    obtain ⟨passes, gains⟩ := putParameters_gains ready here unnamed.bare other puts
    exact .inr ⟨⟨number, parameters, unnamed⟩, passes, fun number parameters unnamed =>
      named number parameters unnamed ▸ gains⟩

theorem passes_generateAt {base : ConstantPool} (ready : Ready base old.pool)
    (gives : Gives (generateAt position) old changed new) : Passes position (position + 1) old new := by
  cases here : old.methods[position]? with
  | none =>
    have nothing : Gives (generateAt position) old false old :=
      Injection.gives_generateAt fun method there => absurd (here.symm.trans there) (by simp)
    obtain ⟨-, rfl⟩ := gives.unique nothing
    exact .refl _ _ _
  | some method =>
    rcases generateAt_gains ready here gives with ⟨-, rfl⟩ | ⟨-, passes, -⟩
    · exact .refl _ _ _
    · exact passes

theorem passes_generateFrom {base : ConstantPool} (ready : Ready base old.pool)
    (gives : Gives (generateFrom position count) old changed new) :
    Passes position (position + count) old new := by
  induction count generalizing position old changed with
  | zero =>
    obtain ⟨-, rfl⟩ := (gives_pure_iff _ _ _ _).mp gives
    exact .refl _ _ _
  | succ count ih =>
    simp only [generateFrom, gives_bind_iff, gives_pure_iff] at gives
    obtain ⟨_, middle, turn, _, _, others, -, rfl⟩ := gives
    -- The others are behind this position, and add to the pool that the turn leaves.
    have early := passes_generateAt ready turn
    have late := ih (ready.later early.pool) others
    rw [Nat.succ_add_eq_add_succ] at late
    exact early.trans late (by omega) (by omega)

end

/-! ## Whole runs -/

/-- The names of earlier methods added the name of one of the attributes of this one. -/
def PassedOver (before after : ClassFile) (position : Nat) (method : Member) : Prop :=
  (∃ earlier < position, after.methods[earlier]? ≠ before.methods[earlier]?) ∧
    ∃ item ∈ method.attributes, before.pool.entries.size ≤ item.name.toNat ∧
      after.pool.utf8 item.name = .ok methodParametersName

section

variable {before file after : ClassFile} {position last : Nat} {method : Member} {number : List Char}
  {parameters : List (List Char)}

/-- At its turn a method is found as it was, unless it has come to have names. -/
theorem unnamed_at_turn_iff (legible : before.Legible) (here : before.methods[position]? = some method)
    (early : Passes 0 position before file) (late : Passes position last file after) :
    Unnamed file method number parameters ↔
      Unnamed before method number parameters ∧ ¬ PassedOver before after position method := by
  have changed : ∀ earlier < position, after.methods[earlier]? = file.methods[earlier]? :=
    fun earlier less => late.outside earlier (.inl less)
  constructor
  · rintro ⟨⟨text, named, numbered⟩, bare, ⟨text', described, spelled⟩, takes⟩
    obtain ⟨⟨own, read⟩, own', read'⟩ := legible.members .method method (List.mem_of_getElem? here)
    obtain rfl := Except.ok.inj ((early.pool.extends.utf8 read).symm.trans named)
    obtain rfl := Except.ok.inj ((early.pool.extends.utf8 read').symm.trans described)
    refine ⟨⟨⟨own, read, numbered⟩, fun item member already => ?_, ⟨own', read', spelled⟩, takes⟩, ?_⟩
    · exact bare item member (early.pool.extends.utf8 already)
    · rintro ⟨⟨earlier, less, different⟩, item, member, -, reads⟩
      rw [changed earlier less] at different
      -- The name of the attribute was in the pool by then, and is in no other slot later.
      rcases early.quiet with rfl | ⟨-, index, there⟩
      · exact different rfl
      · exact bare item member ((late.texts.utf8_iff there _).mp reads)
  · rintro ⟨⟨⟨text, named, numbered⟩, bare, ⟨text', described, spelled⟩, takes⟩, fresh⟩
    refine ⟨⟨text, early.pool.extends.utf8 named, numbered⟩, fun item member read => ?_,
      ⟨text', early.pool.extends.utf8 described, spelled⟩, takes⟩
    rcases early.quiet with rfl | ⟨⟨earlier, -, less, different⟩, -⟩
    · exact bare item member read
    · -- Its name was in no slot before, so it was added for a method that has changed.
      rw [← changed earlier less] at different
      exact fresh ⟨⟨earlier, less, different⟩, item, member,
        outside_of_new_text early.pool.extends (bare item member) read, late.pool.extends.utf8 read⟩

/-- A run over all methods, seen from the turn of one of them. -/
theorem exists_passes_turn {base : ConstantPool} {named : Bool} (ready : Ready base before.pool)
    (here : before.methods[position]? = some method) (gives : Gives generate before named after) :
    ∃ file next changed, Passes 0 position before file ∧ Gives (generateAt position) file changed next ∧
      Passes (position + 1) before.methods.length next after := by
  have within := (List.getElem?_eq_some_iff.mp here).1
  obtain ⟨_, changed, _, file, next, reached, turn, rest⟩ := exists_turn within gives
  have early := passes_generateFrom ready reached
  have ready' := ready.later early.pool
  have late := passes_generateFrom (ready'.later (passes_generateAt ready' turn).pool) rest
  rw [Nat.zero_add] at early
  rw [Nat.add_sub_of_le within] at late
  exact ⟨file, next, changed, early, turn, late⟩

theorem generate_of_inject {changed : Bool} (gives : Gives (Injection.inject none true) before changed after) :
    ∃ named, Gives generate before named after := by
  rw [Injection.inject_eq] at gives
  simp only [gives_bind_iff, gives_pure_iff] at gives
  obtain ⟨_, _, given, named, _, generated, -, rfl⟩ := gives
  obtain ⟨-, rfl⟩ := (gives_pure_iff _ _ _ _).mp given
  exact ⟨named, generated⟩

end

/-- Generating names adds to the pool and to methods alone. A method with a generated name and with
parameters, none of them named, gets an attribute behind its others that names them after their slots,
each by another name. All other methods are as they were, and so are those that are passed over. -/
theorem inject_names_parameters (bytes : Bytes) (before after : ClassFile) (changed : Bool)
    (read : decode bytes = .ok before)
    (injected : Gives (Injection.inject none true) before changed after) :
    Extends before.pool after.pool ∧
      after = { before with pool := after.pool, methods := after.methods } ∧
      after.methods.length = before.methods.length ∧
      ∀ position method, before.methods[position]? = some method →
        (∀ number parameters, Unnamed before method number parameters →
          ¬ PassedOver before after position method →
          Gains after position method (slotNames number method.access parameters) ∧
            (slotNames number method.access parameters).Nodup) ∧
        ((∀ number parameters, ¬ Unnamed before method number parameters) ∨
          PassedOver before after position method → after.methods[position]? = some method) := by
  have whole := whole_decoded read
  have ready : Ready before.pool before.pool := ⟨whole.sound.indexed, whole.faithful, Nat.le_refl _⟩
  obtain ⟨named, generated⟩ := generate_of_inject injected
  have run := passes_generateFrom ready (gives_generate_iff.mp generated)
  refine ⟨run.pool.extends, run.rest, length_methods_generateFrom (gives_generate_iff.mp generated),
    fun position method here => ?_⟩
  obtain ⟨file, next, changed, early, turn, late⟩ := exists_passes_turn ready here generated
  -- No other turn changes the method, so it is found at its own as it was and keeps what it gets there.
  have ready' := ready.later early.pool
  have here' : file.methods[position]? = some method :=
    (early.outside position (.inr (Nat.le_refl _))).trans here
  have left : after.methods[position]? = next.methods[position]? :=
    late.outside position (.inl (Nat.lt_succ_self _))
  have within := (List.getElem?_eq_some_iff.mp here).1
  have asked : ∀ number parameters, Unnamed file method number parameters ↔
      Unnamed before method number parameters ∧ ¬ PassedOver before after position method := fun _ _ =>
    unnamed_at_turn_iff whole.legible here early
      ((passes_generateAt ready' turn).trans late (by omega) within)
  rcases generateAt_gains ready' here' turn with ⟨none_, rfl⟩ | ⟨⟨number, parameters, unnamed⟩, -, gains⟩
  · refine ⟨fun number parameters unnamed fresh => ?_, fun _ => left.trans here'⟩
    exact absurd ((asked number parameters).mpr ⟨unnamed, fresh⟩) (none_ number parameters)
  · obtain ⟨unnamed, fresh⟩ := (asked number parameters).mp unnamed
    refine ⟨fun number parameters unnamed fresh => ⟨?_, nodup_slotNames⟩, fun none_ => ?_⟩
    · exact (gains _ _ ((asked number parameters).mpr ⟨unnamed, fresh⟩)).later late.pool left
    · exact none_.elim (fun none_ => absurd unnamed (none_ _ _)) (fun passed => absurd passed fresh)

def numberedBytes : Bytes :=
  [0xCA, 0xFE, 0xBA, 0xBE, 0, 0, 0, 52, 0, 7, 1, 0, 1, 0x41, 7, 0, 1, 1, 0, 8, 0x66, 0x75, 0x6E, 0x63,
    0x5F, 0x31, 0x5F, 0x61, 1, 0, 5, 0x28, 0x4A, 0x49, 0x29, 0x56, 1, 0, 8, 0x66, 0x75, 0x6E, 0x63, 0x5F,
    0x32, 0x5F, 0x62, 1, 0, 9, 0x28, 0x44, 0x5B, 0x4A, 0x4C, 0x41, 0x3B, 0x29, 0x56, 0, 0, 0, 2, 0, 0, 0, 0,
    0, 0, 0, 2, 0, 0, 0, 3, 0, 4, 0, 0, 0, 8, 0, 5, 0, 6, 0, 0, 0, 0]

theorem inject_names_parameters_numbered :
    decode numberedBytes = .ok numbered ∧ ∃ after,
      Gives (Injection.inject none true) numbered true after ∧
      Gains after 0 ⟨⟨0⟩, 3, 4, []⟩ ["p_1_1_", "p_1_3_"] ∧
      Gains after 1 ⟨⟨8⟩, 5, 6, []⟩ ["p_2_0_", "p_2_2_", "p_2_3_"] := by
  have read : decode numberedBytes = .ok numbered := by decide +kernel
  have injected : Gives (Injection.inject none true) numbered true
      (ran (Injection.inject none true) numbered).2 := Prod.ext (by decide +kernel) rfl
  have unnamed : Unnamed numbered ⟨⟨8⟩, 5, 6, []⟩ ['2'] [['D'], ['[', 'J'], ['L', 'A', ';']] := by
    refine ⟨⟨"func_2_b", rfl, by decide, by simp, ['b'], by decide, by decide⟩, by simp [Absent],
      ⟨"(D[JLA;)V", rfl, ?_, ['V'], .inl rfl, by decide⟩, by decide⟩
    simpa using ⟨IsFieldType.primitive (by decide), IsFieldType.array (.primitive (by decide)),
      @IsFieldType.object ['A'] (by decide) (by decide)⟩
  -- Neither method has an attribute that could get a name.
  have fresh : ∀ after position access name descriptor,
      ¬ PassedOver numbered after position ⟨access, name, descriptor, []⟩ := by
    rintro _ _ _ _ _ ⟨-, _, member, -⟩
    cases member
  obtain ⟨-, -, -, methods⟩ := inject_names_parameters numberedBytes numbered _ true read injected
  refine ⟨read, _, injected, ?_, ?_⟩
  · exact ((methods 0 _ rfl).1 _ _ unnamed_numbered (fresh _ _ _ _ _)).1
  · exact ((methods 1 _ rfl).1 _ _ unnamed (fresh _ _ _ _ _)).1

/-- A class `A` with two methods that take an int, of which the second has an attribute whose name is in
the second slot behind the last one. -/
def unfilled : ClassFile :=
  ⟨0, 52, .ofEntries [.unusable, .utf8 "A", .classRef 1, .utf8 "func_1_a", .utf8 "(I)V",
    .utf8 "func_2_b"], ⟨0⟩, 2, 0, [], [], [⟨⟨0⟩, 3, 4, []⟩, ⟨⟨0⟩, 5, 4, [⟨7, [0]⟩]⟩], []⟩

def unfilledBytes : Bytes :=
  [0xCA, 0xFE, 0xBA, 0xBE, 0, 0, 0, 52, 0, 6, 1, 0, 1, 0x41, 7, 0, 1, 1, 0, 8, 0x66, 0x75, 0x6E, 0x63,
    0x5F, 0x31, 0x5F, 0x61, 1, 0, 4, 0x28, 0x49, 0x29, 0x56, 1, 0, 8, 0x66, 0x75, 0x6E, 0x63, 0x5F, 0x32,
    0x5F, 0x62, 0, 0, 0, 2, 0, 0, 0, 0, 0, 0, 0, 2, 0, 0, 0, 3, 0, 4, 0, 0, 0, 0, 0, 5, 0, 4, 0, 1, 0, 7,
    0, 0, 0, 1, 0, 0, 0]

/-- The first method takes that slot for the name of its attribute. So the second one, whose parameters
have no names, has an attribute for these at its turn, and gets none. -/
theorem inject_passes_over :
    decode unfilledBytes = .ok unfilled ∧
      unfilled.methods[1]? = some ⟨⟨0⟩, 5, 4, [⟨7, [0]⟩]⟩ ∧
      Unnamed unfilled ⟨⟨0⟩, 5, 4, [⟨7, [0]⟩]⟩ ['2'] [['I']] ∧
      ∃ after, Gives (Injection.inject none true) unfilled true after ∧
        after.methods[1]? = some ⟨⟨0⟩, 5, 4, [⟨7, [0]⟩]⟩ ∧
        methodParameters.parse methodParametersName [0] = .ok [] := by
  refine ⟨by decide +kernel, rfl,
    ⟨⟨"func_2_b", rfl, by decide, by simp, ['b'], by decide, by decide⟩,
      fun item member read => ?_, ⟨"(I)V", rfl, ?_, ['V'], .inl rfl, by decide⟩, by decide⟩,
    (ran (Injection.inject none true) unfilled).2, Prod.ext (by decide +kernel) rfl, ?_, ?_⟩
  · obtain rfl := List.mem_singleton.mp member
    revert read
    decide
  · simpa using IsFieldType.primitive (by decide)
  · decide +kernel
  · decide +kernel

end JarRemap.ParameterNames
