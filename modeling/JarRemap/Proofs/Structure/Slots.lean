import JarRemap.Proofs.Descriptor.Grammar
import JarRemap.Proofs.Structure.Again
import JarRemap.Proofs.Text.Pieces
import Mathlib.Algebra.Order.BigOperators.Group.List
import Mathlib.Algebra.Order.Group.Nat

/-!
# The slots of parameters

A generated name has the slot of its parameter, which is counted in two bytes along the descriptor. A
descriptor may be longer than two bytes can count, and whether a method has too many parameters is only
asked when the names are written. So the counter is exact for every class that gets its names, but for
methods that would turn out to have too many parameters later it may stop the program first.
-/

namespace JarRemap.ParameterNames

open ClassFile Attribute

/-! ## The counter -/

/-- The local variable slot of a parameter: the object and all parameters before it come first. -/
def slotOf (access : AccessFlags) (parameters : List (List Char)) (position : Nat) : Nat :=
  (if access.contains .accStatic then 0 else 1) + ((parameters.take position).map slotsOfText).sum

def nameOf (number : List Char) (slot : Nat) : String :=
  "p_" ++ String.ofList number ++ "_" ++ toString slot ++ "_"

/-- The names of the parameters, in order. -/
def slotNames (number : List Char) (access : AccessFlags) (parameters : List (List Char)) :
    List String :=
  (List.range parameters.length).map fun position => nameOf number (slotOf access parameters position)

/-- The value of the counter behind this many parameters. -/
def slotAfter (access : AccessFlags) (parameters : List (List Char)) (count : Nat) :
    Except Failure UInt16 :=
  ((parameters.take count).map slotsOfText).foldlM nextSlot (firstSlot access)

/-- The counter has a value for every parameter and behind the last one, each of them is the exact
slot, and no addition goes beyond two bytes. -/
structure ExactSlots (access : AccessFlags) (parameters : List (List Char)) : Prop where
  values : ∀ count ≤ parameters.length, ∃ slot, slotAfter access parameters count = .ok slot ∧
    slot.toNat = slotOf access parameters count
  additions : ∀ count slot parameter, parameters[count]? = some parameter →
    slotAfter access parameters count = .ok slot → slot.toNat + slotsOfText parameter ≤ 65535

section

variable {number : List Char} {first slot : UInt16} {widths : List Nat} {access : AccessFlags}
  {parameters : List (List Char)} {count : Nat}

theorem nextSlot_ok_iff {width : Nat} {next : UInt16} :
    nextSlot slot width = .ok next ↔ next.toNat = slot.toNat + width := by
  have bound := next.toNat_lt
  rw [nextSlot]
  split
  next fits =>
    rw [Except.ok.injEq, ← UInt16.toNat_inj, UInt16.toNat_add, UInt16.toNat_ofNat']
    omega
  next wide =>
    refine ⟨nofun, fun same => ?_⟩
    omega

/-- The counter only ever has exact values. -/
theorem foldlM_nextSlot_ok_iff :
    widths.foldlM nextSlot first = .ok slot ↔ slot.toNat = first.toNat + widths.sum := by
  induction widths generalizing first with
  | nil => rw [List.foldlM_nil, pure_ok_iff, ← UInt16.toNat_inj, List.sum_nil, Nat.add_zero, eq_comm]
  | cons width widths ih =>
    simp only [List.foldlM_cons, bind_ok_iff, nextSlot_ok_iff, ih, List.sum_cons]
    have bound := slot.toNat_lt
    constructor
    · rintro ⟨next, counted, total⟩
      omega
    · intro total
      -- The value behind this parameter is below the last one.
      refine ⟨.ofNat (first.toNat + width), ?_, ?_⟩ <;>
        rw [UInt16.toNat_ofNat', Nat.mod_eq_of_lt (by omega)]
      omega

theorem exists_foldlM_nextSlot_iff :
    (∃ slot, widths.foldlM nextSlot first = .ok slot) ↔ first.toNat + widths.sum ≤ 65535 := by
  simp only [foldlM_nextSlot_ok_iff]
  constructor
  · rintro ⟨slot, total⟩
    have bound := slot.toNat_lt
    omega
  · intro fits
    exact ⟨.ofNat (first.toNat + widths.sum), by rw [UInt16.toNat_ofNat', Nat.mod_eq_of_lt (by omega)]⟩

/-- There is nothing else that can go wrong with counting. -/
theorem overflow_of_foldlM {failure : Failure} (failed : widths.foldlM nextSlot first = .error failure) :
    failure = .overflow := by
  induction widths generalizing first with
  | nil => cases failed
  | cons width widths ih =>
    rw [List.foldlM_cons] at failed
    cases counted : nextSlot first width with
    | ok next => exact ih (counted ▸ failed)
    | error other =>
      rw [counted] at failed
      obtain rfl := Except.error.inj failed
      rw [nextSlot] at counted
      split at counted
      · cases counted
      · exact (Except.error.inj counted).symm

/-- Names are made as long as the counter goes on, and each is that of the exact slot. -/
theorem names_eq : names number first widths =
    (fun _ => (List.range widths.length).map fun count =>
      nameOf number (first.toNat + (widths.take count).sum)) <$> widths.foldlM nextSlot first := by
  induction widths generalizing first with
  | nil => rfl
  | cons width widths ih =>
    rw [names, List.foldlM_cons]
    cases counted : nextSlot first width with
    | error failure => rfl
    | ok next =>
      -- The names of the others begin at the next value.
      have value := nextSlot_ok_iff.mp counted
      change (names number next widths >>= _) = _ <$> widths.foldlM nextSlot next
      rw [ih]
      cases widths.foldlM nextSlot next with
      | error failure => rfl
      | ok last =>
        simp only [value, List.length_cons, List.range_succ_eq_map, List.map_cons, List.map_map]
        refine congrArg (fun others => Except.ok (name number first :: others)) ?_
        refine List.map_congr_left fun count _ => ?_
        simp [Nat.add_assoc]

theorem firstSlot_toNat : (firstSlot access).toNat = if access.contains .accStatic then 0 else 1 := by
  rw [firstSlot]
  split <;> rfl

theorem slotAfter_ok_iff :
    slotAfter access parameters count = .ok slot ↔ slot.toNat = slotOf access parameters count := by
  rw [slotAfter, foldlM_nextSlot_ok_iff, firstSlot_toNat, slotOf]

private theorem slotOf_all : slotOf access parameters parameters.length =
    (firstSlot access).toNat + (parameters.map slotsOfText).sum := by
  rw [slotOf, firstSlot_toNat, List.take_length]

/-- A slot is not behind that of a later parameter. -/
theorem slotOf_mono : Monotone (slotOf access parameters) := by
  intro count later before
  have part : ((parameters.take count).map slotsOfText).sum ≤ ((parameters.take later).map slotsOfText).sum :=
    ((List.take_prefix_take_left before).sublist.map _).sum_le_sum fun _ _ => Nat.zero_le _
  exact Nat.add_le_add_left part _

theorem slotOf_succ {parameter : List Char} (here : parameters[count]? = some parameter) :
    slotOf access parameters (count + 1) = slotOf access parameters count + slotsOfText parameter := by
  simp only [slotOf, List.take_add_one, here, Option.toList_some, List.map_append, List.map_singleton,
    List.sum_append, List.sum_singleton, Nat.add_assoc]

/-- The counter is exact as long as the slot behind the last parameter fits into two bytes. -/
theorem exactSlots_iff :
    ExactSlots access parameters ↔ slotOf access parameters parameters.length ≤ 65535 := by
  constructor
  · intro exact_
    obtain ⟨slot, -, last⟩ := exact_.values _ (Nat.le_refl _)
    have bound := slot.toNat_lt
    omega
  · intro fits
    constructor
    · intro count within
      -- Slots grow along the descriptor, so all of them fit.
      have below : slotOf access parameters count ≤ slotOf access parameters parameters.length :=
        slotOf_mono within
      have value : (UInt16.ofNat (slotOf access parameters count)).toNat =
          slotOf access parameters count := by
        rw [UInt16.toNat_ofNat', Nat.mod_eq_of_lt (by omega)]
      exact ⟨_, slotAfter_ok_iff.mpr value, value⟩
    · intro count slot parameter here counted
      have within := (List.getElem?_eq_some_iff.mp here).1
      have below : slotOf access parameters (count + 1) ≤ slotOf access parameters parameters.length :=
        slotOf_mono within
      rw [slotAfter_ok_iff.mp counted, ← slotOf_succ here]
      exact Nat.le_trans below fits

/-- The counter goes to the end and the names are those of the exact slots, or the program stops. -/
theorem names_cases : names number (firstSlot access) (parameters.map slotsOfText) =
    if slotOf access parameters parameters.length ≤ 65535 then .ok (slotNames number access parameters)
    else .error .overflow := by
  rw [names_eq, slotOf_all]
  split
  next fits =>
    obtain ⟨slot, counted⟩ := exists_foldlM_nextSlot_iff.mpr fits
    rw [counted, slotNames, List.length_map]
    refine congrArg Except.ok (List.map_congr_left fun count _ => ?_)
    rw [firstSlot_toNat, ← List.map_take, slotOf]
  next wide =>
    cases counted : (parameters.map slotsOfText).foldlM nextSlot (firstSlot access) with
    | ok slot => exact absurd (exists_foldlM_nextSlot_iff.mp ⟨slot, counted⟩) wide
    | error failure => rw [overflow_of_foldlM counted]; rfl

end

/-! ## Methods without parameter names -/

/-- The name is the mark, the number and, behind an underscore, anything else. -/
structure Numbered (number name : List Char) : Prop where
  begun : number ≠ []
  digits : ∀ c ∈ number, c.isDigit
  text : ∃ rest, rest ≠ [] ∧ name = methodMark.toList ++ number ++ '_' :: rest

/-- The method has a generated name and these parameters, of which none has a name. -/
structure Unnamed (file : ClassFile) (method : Member) (number : List Char)
    (parameters : List (List Char)) : Prop where
  name : ∃ text, file.pool.utf8 method.name = .ok text ∧ Numbered number text.toList
  bare : Absent file.pool methodParametersName method.attributes
  descriptor : ∃ text, file.pool.utf8 method.descriptor = .ok text ∧
    IsMethodType parameters text.toList
  takes : parameters ≠ []

section

variable {file : ClassFile} {method : Member} {number : List Char} {parameters : List (List Char)}

theorem methodNumber?_eq_some_iff {text : List Char} :
    methodNumber? text = some number ↔ Numbered number text := by
  simp only [methodNumber?, Option.bind_eq_bind, Option.bind_eq_some_iff, Text.after?_eq_some_iff]
  constructor
  · rintro ⟨behind, rfl, found⟩
    split at found
    next cutting =>
      split at found
      · cases found
      next proper =>
        obtain rfl := Option.some.inj found
        simp only [Bool.or_eq_true, List.isEmpty_iff, Bool.not_eq_true', Bool.not_eq_false, not_or,
          List.all_eq_true] at proper
        obtain ⟨rfl, -⟩ := Text.cut_eq_some_iff.mp cutting
        exact ⟨proper.1, proper.2, _, List.cons_ne_nil _ _, by rw [List.append_assoc]⟩
    · cases found
  · rintro ⟨begun, digits, rest, more, rfl⟩
    obtain ⟨c, rest, rfl⟩ := List.exists_cons_of_ne_nil more
    -- No digit is an underscore, so the first one ends the number.
    have free : '_' ∉ number := fun member => absurd (digits '_' member) (by decide)
    refine ⟨number ++ '_' :: c :: rest, List.append_assoc _ _ _, ?_⟩
    rw [Text.cut_eq_some_iff.mpr ⟨rfl, free⟩]
    simp [begun, List.all_eq_true.mpr digits]

/-- A method without parameter names is to get one for the slot of each parameter, if all of these can
be counted. -/
theorem Unnamed.wanted_eq (unnamed : Unnamed file method number parameters) : wanted file method =
    if slotOf method.access parameters parameters.length ≤ 65535 then
      .ok (some (slotNames number method.access parameters))
    else .error .overflow := by
  obtain ⟨⟨name, named, numbered⟩, bare, ⟨descriptor, described, spelled⟩, takes⟩ := unnamed
  have widths := Descriptor.parameterSlots_ok_iff.mpr ⟨parameters, spelled, rfl⟩
  simp only [wanted, named, described, widths, Failure.ofFault, Except.mapError, bind, Except.bind,
    methodNumber?_eq_some_iff.mpr numbered, bare.body?_eq, names_cases]
  by_cases fits : slotOf method.access parameters parameters.length ≤ 65535 <;>
    simp [takes, fits, pure, Except.pure]

/-- Names are wanted for just these methods. -/
theorem wanted_eq_some_iff {found : List String} :
    wanted file method = .ok (some found) ↔ ∃ number parameters,
      Unnamed file method number parameters ∧
        slotOf method.access parameters parameters.length ≤ 65535 ∧
        found = slotNames number method.access parameters := by
  constructor
  · intro wants
    obtain ⟨number, parameters, unnamed⟩ : ∃ number parameters,
        Unnamed file method number parameters := by
      simp only [wanted, bind_ok_iff, Failure.ofFault_ok_iff] at wants
      obtain ⟨name, named, wants⟩ := wants
      split at wants
      · cases wants
      next number numbered =>
        split at wants
        · cases wants
        next bare =>
          simp only [bind_ok_iff, Failure.ofFault_ok_iff] at wants
          obtain ⟨descriptor, described, widths, counted, wants⟩ := wants
          obtain ⟨parameters, spelled, rfl⟩ := Descriptor.parameterSlots_ok_iff.mp counted
          split at wants
          · cases wants
          next takes =>
            have absent := absent_of_body? (Option.not_isSome_iff_eq_none.mp bare)
            -- A method without parameters gets no list, which would be empty.
            refine ⟨number, parameters, ⟨name, named, methodNumber?_eq_some_iff.mp numbered⟩, absent,
              ⟨descriptor, described, spelled⟩, ?_⟩
            rintro rfl
            simp at takes
    rw [unnamed.wanted_eq] at wants
    split at wants
    next fits => exact ⟨number, parameters, unnamed, fits, (Option.some.inj (Except.ok.inj wants)).symm⟩
    · cases wants
  · rintro ⟨number, parameters, unnamed, fits, rfl⟩
    rw [unnamed.wanted_eq, if_pos fits]

end

/-! ## Runs -/

/-- Generating names for some methods, and then for those behind them. -/
theorem generateFrom_add (position front back : Nat) :
    generateFrom position (front + back) = (do
      let early ← generateFrom position front
      let late ← generateFrom (position + front) back
      return early || late) := by
  induction front generalizing position with
  | zero => simp only [generateFrom, Nat.zero_add, Nat.add_zero, pure_bind, Bool.false_or, bind_pure]
  | succ front ih =>
    rw [Nat.succ_add, generateFrom, generateFrom, ih, Nat.succ_add_eq_add_succ]
    simp only [bind_assoc, pure_bind, Bool.or_assoc]

section

variable {before file after : ClassFile} {position count : Nat} {changed early : Bool}

theorem gives_generate_iff : Gives generate before changed after ↔
    Gives (generateFrom 0 before.methods.length) before changed after := by
  rw [Gives, Injection.ran_generate, Gives]

/-- As many methods as before. -/
theorem length_methods_generateFrom (gives : Gives (generateFrom position count) before changed after) :
    after.methods.length = before.methods.length := by
  have same : SameNames before after := gives.moved (Injection.moves_generateFrom _ _)
  simpa [symbolSlots, members] using congrArg List.length (same.symbolSlots .method)

/-- A run over all methods is parted at the turn of each. -/
theorem exists_turn (within : position < before.methods.length)
    (gives : Gives generate before changed after) :
    ∃ early named late file next, Gives (generateFrom 0 position) before early file ∧
      Gives (generateAt position) file named next ∧
      Gives (generateFrom (position + 1) (before.methods.length - (position + 1))) next late after := by
  have parts : before.methods.length =
      position + (before.methods.length - (position + 1) + 1) := by omega
  rw [gives_generate_iff, parts, generateFrom_add] at gives
  simp only [gives_bind_iff, Nat.zero_add, generateFrom] at gives
  obtain ⟨early, file, reached, _, _, ⟨named, next, generated, late, _, rest, -, rfl⟩, -, rfl⟩ := gives
  exact ⟨early, named, late, file, next, reached, generated, rest⟩

/-- A run over all methods ends where one of them fails. -/
theorem ran_generate_of_failed {failure : Failure} (within : position < before.methods.length)
    (reached : Gives (generateFrom 0 position) before early file)
    (failed : ran (generateAt position) file = (.error failure, after)) :
    ran generate before = (.error failure, after) := by
  have parts : before.methods.length =
      position + (before.methods.length - (position + 1) + 1) := by omega
  rw [Injection.ran_generate, parts, generateFrom_add, ran_bind_of_gives reached]
  refine ran_bind_of_failed ?_ _
  rw [Nat.zero_add, generateFrom]
  exact ran_bind_of_failed failed _

theorem ran_generateAt {method : Member} {failure : Failure}
    (here : file.methods[position]? = some method) (fails : wanted file method = .error failure) :
    ran (generateAt position) file = (.error failure, file) := by
  rw [generateAt, ran_bind, ran_get]
  simp only [here]
  refine ran_bind_of_failed ?_ _
  rw [ran_lift, fails]

/-- The number of parameters is written in one byte. -/
private theorem length_of_encode {parameters : List MethodParameter} {body : Bytes}
    (encoded : methodParameters.encode parameters = .ok body) : parameters.length ≤ 255 := by
  rw [Format.encode_ok_iff, methodParameters, Format.countedByte] at encoded
  dsimp only at encoded
  split at encoded
  next few => omega
  · cases encoded

theorem length_of_putParameters {site : Site} {found : List String}
    (gives : Gives (Injection.putParameters site found) before changed after) : found.length ≤ 255 := by
  obtain ⟨parameters, _, interned, puts⟩ := (gives_bind_iff _ _ _ _ _).mp gives
  obtain ⟨body, _, reads, -⟩ := (gives_bind_iff _ _ _ _ _).mp puts
  rw [Injection.gives_ofEdit_iff, gives_read_iff] at reads
  rw [(exists_gives_of_mapM interned).length_eq]
  exact length_of_encode reads.1

end

/-! ## Counting -/

/-- The call comes to the method, finds the class like this, and counts the slots of its parameters. -/
structure Counts (structure_ : Option ClassStructure) (before : ClassFile) (position : Nat)
    (file : ClassFile) (method : Member) (number : List Char) (parameters : List (List Char)) :
    Prop where
  reached : ∃ restored start early,
    Gives (structure_.elim (pure false) Injection.putStructure) before restored start ∧
      Gives (generateFrom 0 position) start early file
  here : file.methods[position]? = some method
  unnamed : Unnamed file method number parameters

section

variable {structure_ : Option ClassStructure} {before file after : ClassFile} {position : Nat}
  {method : Member} {number : List Char} {parameters : List (List Char)} {changed : Bool}

/-- Slots are exact if the number of parameters fits into one byte. -/
theorem exactSlots_of_few (few : parameters.length ≤ 255) (access : AccessFlags) :
    ExactSlots access parameters := by
  have wide : (parameters.map slotsOfText).sum ≤ (parameters.map slotsOfText).length * 2 := by
    refine List.sum_le_card_nsmul _ 2 fun width member => ?_
    obtain ⟨parameter, -, rfl⟩ := List.mem_map.mp member
    rw [slotsOfText]
    split <;> omega
  rw [List.length_map] at wide
  rw [exactSlots_iff, slotOf, List.take_length]
  split <;> omega

/-- A call that names the parameters has written them all, so there are few. -/
private theorem Counts.few (counts : Counts structure_ before position file method number parameters)
    (gives : Gives (Injection.inject structure_ true) before changed after) :
    parameters.length ≤ 255 := by
  obtain ⟨⟨restored, start, early, given, reached⟩, here, unnamed⟩ := counts
  rw [Injection.inject_eq] at gives
  simp only [gives_bind_iff] at gives
  obtain ⟨_, _, given', _, _, generated, -⟩ := gives
  -- Both runs are the same up to the turn of the method, where its names are written.
  obtain ⟨-, rfl⟩ := given.unique given'
  have within := (List.getElem?_eq_some_iff.mp here).1
  rw [length_methods_generateFrom reached] at within
  obtain ⟨_, _, _, _, _, reached', turn, -⟩ := exists_turn within generated
  obtain ⟨-, rfl⟩ := reached.unique reached'
  rcases (Injection.gives_generateAt_iff here).mp turn with ⟨wants, -⟩ | ⟨found, wants, puts⟩
  · rw [unnamed.wanted_eq] at wants
    split at wants <;> cases wants
  · rw [unnamed.wanted_eq] at wants
    split at wants
    · obtain rfl := Option.some.inj (Except.ok.inj wants)
      simpa [slotNames] using length_of_putParameters puts
    · cases wants

/-- A call that comes to a method with too many slots stops there. -/
private theorem Counts.stops (counts : Counts structure_ before position file method number parameters)
    (wide : ¬ slotOf method.access parameters parameters.length ≤ 65535) :
    ran (Injection.inject structure_ true) before = (.error .overflow, file) := by
  obtain ⟨⟨restored, start, early, given, reached⟩, here, unnamed⟩ := counts
  have fails : wanted file method = .error .overflow := by rw [unnamed.wanted_eq, if_neg wide]
  have within := (List.getElem?_eq_some_iff.mp here).1
  rw [length_methods_generateFrom reached] at within
  rw [Injection.inject_eq, ran_bind_of_gives given]
  exact ran_bind_of_failed (ran_generate_of_failed within reached (ran_generateAt here fails)) _

end

/-- The counter for a method whose parameters a call comes to name only ever has exact values. It has
all of them if and only if the slot behind the last parameter fits into two bytes, and then the names
are those of the exact slots. Otherwise an addition goes too far, and the program stops with the class as
the method found it. A call that succeeds has found few parameters, and so it has counted exactly. -/
theorem slots_exact_iff (structure_ : Option ClassStructure) (before file : ClassFile) (position : Nat)
    (method : Member) (number : List Char) (parameters : List (List Char))
    (counts : Counts structure_ before position file method number parameters) :
    (∀ count slot, slotAfter method.access parameters count = .ok slot →
        slot.toNat = slotOf method.access parameters count) ∧
      (ExactSlots method.access parameters ↔
        slotOf method.access parameters parameters.length ≤ 65535) ∧
      (ExactSlots method.access parameters →
        wanted file method = .ok (some (slotNames number method.access parameters))) ∧
      (¬ ExactSlots method.access parameters →
        ran (Injection.inject structure_ true) before = (.error .overflow, file)) ∧
      ((∃ changed after, Gives (Injection.inject structure_ true) before changed after) →
        parameters.length ≤ 255 ∧ ExactSlots method.access parameters) := by
  refine ⟨fun count slot => slotAfter_ok_iff.mp, exactSlots_iff, fun exact_ => ?_, fun inexact => ?_,
    fun ⟨_, _, gives⟩ => ?_⟩
  · rw [counts.unnamed.wanted_eq, if_pos (exactSlots_iff.mp exact_)]
  · exact counts.stops fun fits => inexact (exactSlots_iff.mpr fits)
  · have few := counts.few gives
    exact ⟨few, exactSlots_of_few few _⟩

/-- A class `A` with a method that takes a long and an int, and a static one that takes a double, an
array of longs and the class itself. -/
def numbered : ClassFile :=
  ⟨0, 52, .ofEntries [.unusable, .utf8 "A", .classRef 1, .utf8 "func_1_a", .utf8 "(JI)V",
    .utf8 "func_2_b", .utf8 "(D[JLA;)V"], ⟨0⟩, 2, 0, [], [], [⟨⟨0⟩, 3, 4, []⟩, ⟨⟨8⟩, 5, 6, []⟩], []⟩

theorem unnamed_numbered : Unnamed numbered ⟨⟨0⟩, 3, 4, []⟩ ['1'] [['J'], ['I']] where
  name := ⟨"func_1_a", rfl, by decide, by simp, ['a'], by decide, by decide⟩
  bare := by simp [Absent]
  descriptor := ⟨"(JI)V", rfl, by
    simpa using ⟨IsFieldType.primitive (by decide), IsFieldType.primitive (by decide)⟩,
    ['V'], .inl rfl, by decide⟩
  takes := by decide

theorem slots_exact_iff_numbered :
    Counts none numbered 0 numbered ⟨⟨0⟩, 3, 4, []⟩ ['1'] [['J'], ['I']] ∧
      wanted numbered ⟨⟨0⟩, 3, 4, []⟩ = .ok (some ["p_1_1_", "p_1_3_"]) ∧
      ExactSlots ⟨0⟩ [['J'], ['I']] := by
  have counts : Counts none numbered 0 numbered ⟨⟨0⟩, 3, 4, []⟩ ['1'] [['J'], ['I']] :=
    ⟨⟨false, numbered, false, rfl, rfl⟩, rfl, unnamed_numbered⟩
  obtain ⟨-, exact_, names, -⟩ := slots_exact_iff none numbered numbered 0 _ _ _ counts
  have fits := exact_.mpr (by decide)
  exact ⟨counts, names fits, fits⟩

/-- A class `A` with a method that takes this many longs. -/
def manyLongs (count : Nat) : ClassFile :=
  ⟨0, 52, .ofEntries [.unusable, .utf8 "A", .classRef 1, .utf8 "func_1_a",
    .utf8 (String.ofList ('(' :: List.replicate count 'J' ++ [')', 'V']))], ⟨0⟩, 2, 0, [], [],
    [⟨⟨0⟩, 3, 4, []⟩], []⟩

def manyLongsBytes (count : Nat) : Bytes :=
  [0xCA, 0xFE, 0xBA, 0xBE, 0, 0, 0, 52, 0, 5, 1, 0, 1, 0x41, 7, 0, 1, 1, 0, 8, 0x66, 0x75, 0x6E, 0x63,
    0x5F, 0x31, 0x5F, 0x61, 1] ++ Bytes.ofUInt16 (.ofNat (count + 3)) ++
    (0x28 :: List.replicate count 0x4A ++ [0x29, 0x56]) ++
    [0, 0, 0, 2, 0, 0, 0, 0, 0, 0, 0, 1, 0, 0, 0, 3, 0, 4, 0, 0, 0, 0]

private theorem spelled_text {text : String} {payload : Bytes}
    (encoded : Text.ModifiedUtf8.encode text = payload) (fits : payload.length < 65536) :
    (Constant.utf8 text).Spelled (1 :: (Bytes.ofUInt16 (.ofNat payload.length) ++ payload)) := by
  refine ⟨1, _, rfl, ⟨payload, ⟨_, ?_, rfl⟩, (Constant.ofUtf8Bytes_text_iff _ _).mpr ?_⟩, rfl⟩
  · rw [UInt16.toNat_ofNat', Nat.mod_eq_of_lt fits]
  · rw [← encoded, Text.ModifiedUtf8.decodeLenient_encode]

private theorem encode_longs (count : Nat) :
    Text.ModifiedUtf8.encode (String.ofList ('(' :: List.replicate count 'J' ++ [')', 'V'])) =
      0x28 :: List.replicate count 0x4A ++ [0x29, 0x56] := by
  have long : (Text.Utf16.ofChar 'J').flatMap Text.ModifiedUtf8.group = [0x4A] := by decide
  rw [Text.ModifiedUtf8.encode, Text.Utf16.encode, String.toList_ofList, List.flatMap_assoc,
    List.flatMap_append, List.flatMap_cons, List.flatMap_replicate, long, List.flatten_replicate_singleton]
  rfl

private theorem decode_manyLongs {count : Nat} (fits : count + 3 < 65536) :
    decode (manyLongsBytes count) = .ok (manyLongs count) := by
  have length : (0x28 :: List.replicate count 0x4A ++ [0x29, 0x56] : Bytes).length = count + 3 := by simp
  have descriptor := spelled_text (encode_longs count) (by rw [length]; exact fits)
  have own : (Constant.utf8 "A").Spelled [1, 0, 1, 0x41] := spelled_text rfl (by decide)
  have name : (Constant.utf8 "func_1_a").Spelled
      [1, 0, 8, 0x66, 0x75, 0x6E, 0x63, 0x5F, 0x31, 0x5F, 0x61] := spelled_text rfl (by decide)
  rw [length] at descriptor
  have reference : (Constant.classRef 1).Spelled [7, 0, 1] := ⟨7, [0, 1], rfl, rfl, rfl⟩
  have front : header 0 52 ++ Bytes.ofUInt16 5 = [0xCA, 0xFE, 0xBA, 0xBE, 0, 0, 0, 52, 0, 5] := by
    decide +kernel
  have tail : Tail.format.write (manyLongs 0).tail =
      .ok [0, 0, 0, 2, 0, 0, 0, 0, 0, 0, 0, 1, 0, 0, 0, 3, 0, 4, 0, 0, 0, 0] := by decide +kernel
  -- The pool is long, so its bytes are given constant by constant and not worked out.
  refine (decode_ok_iff _ _).mpr ⟨⟨_, _, ⟨5, _, _, rfl, rfl,
    .cons own (.cons reference (.cons name (.cons descriptor .nil))), rfl⟩, tail, ?_⟩, rfl⟩
  rw [manyLongsBytes, ← List.append_assoc (header _ _)]
  change _ = header 0 52 ++ Bytes.ofUInt16 5 ++ _ ++ _
  rw [front]
  simp

private theorem counts_manyLongs {count : Nat} (some : count ≠ 0) :
    Counts none (manyLongs count) 0 (manyLongs count) ⟨⟨0⟩, 3, 4, []⟩ ['1']
      (List.replicate count ['J']) where
  reached := ⟨false, _, false, rfl, rfl⟩
  here := rfl
  unnamed :=
    { name := ⟨"func_1_a", rfl, by decide, by simp, ['a'], by decide, by decide⟩
      bare := by simp [Absent]
      descriptor := by
        refine ⟨_, rfl, fun parameter member => ?_, ['V'], .inl rfl, ?_⟩
        · obtain rfl := List.eq_of_mem_replicate member
          exact .primitive (by decide)
        · rw [String.toList_ofList, List.flatten_replicate_singleton]
      takes := by simpa using some }

/-- With more longs than there are slots to count, the last slot is reached, and the program stops at
the addition behind it. -/
theorem slots_overflow :
    decode (manyLongsBytes 32769) = .ok (manyLongs 32769) ∧
      Counts none (manyLongs 32769) 0 (manyLongs 32769) ⟨⟨0⟩, 3, 4, []⟩ ['1']
        (List.replicate 32769 ['J']) ∧
      slotAfter ⟨0⟩ (List.replicate 32769 ['J']) 32767 = .ok 65535 ∧ slotsOfText ['J'] = 2 ∧
      ¬ ExactSlots ⟨0⟩ (List.replicate 32769 ['J']) ∧
      ran (Injection.inject none true) (manyLongs 32769) = (.error .overflow, manyLongs 32769) := by
  have slots (count : Nat) (few : count ≤ 32769) :
      slotOf ⟨0⟩ (List.replicate 32769 ['J']) count = 1 + count * 2 := by
    rw [slotOf, List.take_replicate, Nat.min_eq_left few, List.map_replicate, List.sum_replicate_nat]
    rfl
  have counts : Counts none (manyLongs 32769) 0 (manyLongs 32769) ⟨⟨0⟩, 3, 4, []⟩ ['1']
      (List.replicate 32769 ['J']) := counts_manyLongs (by omega)
  have wide : ¬ slotOf ⟨0⟩ (List.replicate 32769 ['J']) (List.replicate 32769 ['J']).length ≤ 65535 := by
    rw [List.length_replicate, slots _ (Nat.le_refl _)]
    decide
  refine ⟨decode_manyLongs (by omega), counts, ?_, rfl, fun exact_ => wide (exactSlots_iff.mp exact_),
    counts.stops wide⟩
  rw [slotAfter_ok_iff, slots _ (by omega)]
  rfl

end JarRemap.ParameterNames
