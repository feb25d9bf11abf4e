import JarRemap.Proofs.Descriptor.Types

/-!
# The grammar of descriptors

What a field type and a method type look like, said of the text alone. Reading accepts exactly these
texts, whatever characters a class name has, and finds the types of the parameters in order.
-/

namespace JarRemap

/-- A letter for a primitive type, a class name between `L` and a semicolon, or a bracket in front of
a field type. -/
inductive IsFieldType : List Char → Prop
  | primitive {letter : Char} (known : letter ∈ ['B', 'C', 'D', 'F', 'I', 'J', 'S', 'Z']) :
      IsFieldType [letter]
  | object {name : List Char} (begun : name ≠ []) (solid : ';' ∉ name) :
      IsFieldType ('L' :: (name ++ [';']))
  | array {element : List Char} (inner : IsFieldType element) : IsFieldType ('[' :: element)

/-- The text is that of the parameter types in parentheses, and of what is returned. -/
structure IsMethodType (parameters : List (List Char)) (source : List Char) : Prop where
  types : ∀ parameter ∈ parameters, IsFieldType parameter
  text : ∃ returned, (returned = ['V'] ∨ IsFieldType returned) ∧
    source = '(' :: parameters.flatten ++ ')' :: returned

/-- The local variable slots that a parameter takes: two for a long or double that is no element of an
array. -/
def slotsOfText (parameter : List Char) : Nat := if parameter = ['J'] ∨ parameter = ['D'] then 2 else 1

theorem Primitive.letter_mem_iff {letter : Char} :
    letter ∈ ['B', 'C', 'D', 'F', 'I', 'J', 'S', 'Z'] ↔ ∃ type : Primitive, letter = type.letter := by
  constructor
  · intro known
    simp only [List.mem_cons, List.not_mem_nil, or_false] at known
    rcases known with rfl | rfl | rfl | rfl | rfl | rfl | rfl | rfl
    exacts [⟨byte, rfl⟩, ⟨char, rfl⟩, ⟨double, rfl⟩, ⟨float, rfl⟩, ⟨int, rfl⟩, ⟨long, rfl⟩, ⟨short, rfl⟩,
      ⟨boolean, rfl⟩]
  · rintro ⟨type, rfl⟩
    cases type <;> decide

/-- The texts of the grammar are those of the types with proper class names. -/
theorem isFieldType_iff {source : List Char} :
    IsFieldType source ↔ ∃ type : FieldType, type.WellNamed ∧ source = type.text := by
  constructor
  · intro spelled
    induction spelled with
    | primitive known =>
      obtain ⟨type, rfl⟩ := Primitive.letter_mem_iff.mp known
      exact ⟨.primitive type, trivial, rfl⟩
    | object begun solid => exact ⟨.object _, ⟨begun, solid⟩, rfl⟩
    | array _ ih =>
      obtain ⟨type, named, rfl⟩ := ih
      exact ⟨.array type, named, rfl⟩
  · rintro ⟨type, named, rfl⟩
    induction type with
    | primitive type => exact .primitive (Primitive.letter_mem_iff.mpr ⟨type, rfl⟩)
    | object name => exact .object named.1 named.2
    | array element ih => exact .array (ih named)

theorem slotsOfText_text (type : FieldType) : slotsOfText type.text = type.slots := by
  cases type with
  | primitive type => cases type <;> rfl
  | object name => simp [slotsOfText, FieldType.text, FieldType.slots]
  | array element => simp [slotsOfText, FieldType.text, FieldType.slots]

/-- The texts of types are texts of the grammar, and the other way round. -/
theorem exists_types_iff {parameters : List (List Char)} :
    (∀ parameter ∈ parameters, IsFieldType parameter) ↔
      ∃ types : List FieldType, (∀ type ∈ types, type.WellNamed) ∧
        parameters = types.map FieldType.text := by
  constructor
  · intro spelled
    induction parameters with
    | nil => exact ⟨[], by simp⟩
    | cons parameter parameters ih =>
      obtain ⟨first, others⟩ := List.forall_mem_cons.mp spelled
      obtain ⟨type, named, rfl⟩ := isFieldType_iff.mp first
      obtain ⟨types, named', rfl⟩ := ih others
      exact ⟨type :: types, List.forall_mem_cons.mpr ⟨named, named'⟩, rfl⟩
  · rintro ⟨types, named, rfl⟩ parameter member
    obtain ⟨type, found, rfl⟩ := List.mem_map.mp member
    exact isFieldType_iff.mpr ⟨type, named type found, rfl⟩

theorem isMethodType_iff {parameters : List (List Char)} {source : List Char} :
    IsMethodType parameters source ↔ ∃ type : MethodType, type.WellNamed ∧ source = type.text ∧
      parameters = type.parameters.map FieldType.text := by
  constructor
  · rintro ⟨spelled, returned, ends, rfl⟩
    obtain ⟨types, named, rfl⟩ := exists_types_iff.mp spelled
    -- What stands behind the parenthesis is either the letter for nothing or a type.
    rcases ends with rfl | ends
    · exact ⟨⟨types, none⟩, ⟨named, by simp⟩, by simp [MethodType.text, List.flatMap_def], rfl⟩
    · obtain ⟨type, named', rfl⟩ := isFieldType_iff.mp ends
      exact ⟨⟨types, some type⟩, ⟨named, by simpa using named'⟩,
        by simp [MethodType.text, List.flatMap_def], rfl⟩
  · -- Only what is returned may be nothing.
    rintro ⟨⟨types, returned⟩, ⟨named, named'⟩, rfl, rfl⟩
    refine ⟨exists_types_iff.mpr ⟨types, named, rfl⟩, ?_⟩
    cases returned with
    | none => exact ⟨['V'], .inl rfl, by simp [MethodType.text, List.flatMap_def]⟩
    | some type =>
      exact ⟨type.text, .inr (isFieldType_iff.mpr ⟨type, named' type rfl, rfl⟩),
        by simp [MethodType.text, List.flatMap_def]⟩

namespace Descriptor

theorem parameterSlots_ok_iff {descriptor : String} {slots : List Nat} :
    parameterSlots descriptor = .ok slots ↔
      ∃ parameters, IsMethodType parameters descriptor.toList ∧ slots = parameters.map slotsOfText := by
  have counted (type : MethodType) :
      (type.parameters.map FieldType.text).map slotsOfText = type.parameters.map FieldType.slots := by
    rw [List.map_map]
    exact List.map_congr_left fun type _ => slotsOfText_text type
  rw [parameterSlots]
  cases parsed : MethodType.parse? descriptor.toList with
  | none =>
    -- A text of the grammar would have been read.
    simp only [reduceCtorEq, false_iff, not_exists, not_and]
    rintro parameters spelled -
    obtain ⟨type, named, same, -⟩ := isMethodType_iff.mp spelled
    rw [MethodType.parse?_eq_some_iff.mpr ⟨same, named⟩] at parsed
    cases parsed
  | some type =>
    obtain ⟨same, named⟩ := MethodType.parse?_eq_some_iff.mp parsed
    rw [Except.ok.injEq, ← counted]
    constructor
    · rintro rfl
      exact ⟨_, isMethodType_iff.mpr ⟨type, named, same, rfl⟩, rfl⟩
    · rintro ⟨parameters, spelled, rfl⟩
      obtain ⟨other, named', same', rfl⟩ := isMethodType_iff.mp spelled
      -- A text is read in one way only.
      have again := MethodType.parse?_eq_some_iff.mpr ⟨same', named'⟩
      obtain rfl := Option.some.inj (parsed.symm.trans again)
      rfl

/-- A text is taken for a field descriptor if it is one field type, and for a method descriptor if it
is one method type. The slots are those of the parameters, in order, and any other text is refused. -/
theorem recognises_grammar (descriptor : String) :
    (isField descriptor ↔ IsFieldType descriptor.toList) ∧
      (isMethod descriptor ↔ ∃ parameters, IsMethodType parameters descriptor.toList) ∧
      (∀ slots, parameterSlots descriptor = .ok slots ↔
        ∃ parameters, IsMethodType parameters descriptor.toList ∧ slots = parameters.map slotsOfText) ∧
      (parameterSlots descriptor = .error (.badDescriptor descriptor) ↔
        ¬ ∃ parameters, IsMethodType parameters descriptor.toList) := by
  refine ⟨?_, ?_, fun slots => parameterSlots_ok_iff, ?_⟩
  · simp [isField, Option.isSome_iff_exists, FieldType.parse?_eq_some_iff, isFieldType_iff, and_comm]
  · simp [isMethod_iff, isMethodType_iff]
  · constructor
    · rintro refused ⟨parameters, spelled⟩
      rw [parameterSlots_ok_iff.mpr ⟨parameters, spelled, rfl⟩] at refused
      cases refused
    · intro other
      rw [parameterSlots]
      split
      next type parsed =>
        obtain ⟨same, named⟩ := MethodType.parse?_eq_some_iff.mp parsed
        exact absurd ⟨_, isMethodType_iff.mpr ⟨type, named, same, rfl⟩⟩ other
      next => rfl

/-- Only the bare long and double take two slots, and a class name may hold any bracket. -/
example : parameterSlots "(IJ[JL)(;D)V" = .ok [1, 2, 1, 1, 2] := by decide

end Descriptor

end JarRemap
