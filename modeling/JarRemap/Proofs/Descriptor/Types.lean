import JarRemap.Descriptor
import Mathlib.Data.List.TakeDrop
import Mathlib.Data.List.TakeWhile

/-!
# Descriptors are read as they are written

A field type ends with the letter of a primitive type or with a semicolon, so what stands at the front
of a text is at most one field type.
-/

namespace JarRemap

theorem Primitive.ofLetter?_eq_some_iff {c : Char} {type : Primitive} :
    ofLetter? c = some type ↔ c = type.letter := by
  constructor
  · intro found
    rw [ofLetter?.eq_def] at found
    split at found <;> cases found <;> rfl
  · rintro rfl
    cases type <;> rfl

namespace FieldType

variable {source rest : List Char} {type : FieldType}

theorem arrays_array (depth : Nat) (type : FieldType) :
    arrays depth (array type) = array (arrays depth type) := by
  induction depth generalizing type with
  | zero => rfl
  | succ depth ih => exact ih (array type)

theorem read?_bracket (source : List Char) :
    read? ('[' :: source) = (read? source).map fun (type, rest) => (array type, rest) := by
  rw [read?, read?, List.span_eq_takeWhile_dropWhile, List.span_eq_takeWhile_dropWhile]
  simp [arrays, arrays_array, Function.comp_def]

theorem read?_letter {c : Char} (letter : c ≠ '[') (source : List Char) :
    read? (c :: source) = readElement? (c :: source) := by
  rw [read?, List.span_eq_takeWhile_dropWhile, List.takeWhile_cons_of_neg (by simpa using letter),
    List.dropWhile_cons_of_neg (by simpa using letter)]
  simp [arrays]

theorem readElement?_name {name : List Char} (begun : name ≠ []) (solid : ';' ∉ name)
    (rest : List Char) : readElement? ('L' :: (name ++ ';' :: rest)) = some (object name, rest) := by
  have passes : ∀ c ∈ name, (c != ';') = true := fun c member =>
    bne_iff_ne.mpr fun same => solid (same ▸ member)
  simp [readElement?, List.takeWhile_append_of_pos passes, List.dropWhile_append_of_pos passes, begun]

theorem text_of_readElement? (found : readElement? source = some (type, rest)) :
    source = type.text ++ rest ∧ type.WellNamed := by
  rw [readElement?.eq_def] at found
  split at found
  next => cases found
  next behind =>
    rw [List.span_eq_takeWhile_dropWhile] at found
    split at found
    next name c after parted =>
      obtain ⟨named, ended⟩ := Prod.mk.inj parted
      split at found
      next => cases found
      next begun =>
        obtain ⟨rfl, rfl⟩ := Prod.mk.inj (Option.some.inj found)
        -- The name ends where the search for a semicolon stopped, so that is what stands there.
        have stops := List.head?_dropWhile_not (· != ';') behind
        obtain rfl : c = ';' := by simpa [ended] using stops
        have whole := List.takeWhile_append_dropWhile (p := (· != ';')) (l := behind)
        rw [named, ended] at whole
        refine ⟨by simp [text, whole], by simpa using begun, fun within => ?_⟩
        rw [← named] at within
        simpa using List.all_eq_true.mp List.all_takeWhile _ within
    next => cases found
  next c behind _ =>
    obtain ⟨primitive, letter, same⟩ := Option.map_eq_some_iff.mp found
    obtain ⟨rfl, rfl⟩ := Prod.mk.inj same
    exact ⟨by rw [Primitive.ofLetter?_eq_some_iff.mp letter]; rfl, trivial⟩

/-- What is read is the field type that stands at the front. -/
theorem read?_eq_some_iff :
    read? source = some (type, rest) ↔ source = type.text ++ rest ∧ type.WellNamed := by
  constructor
  · -- The reader goes by the letters of the source, and brackets are the only ones it recurs at.
    intro found
    induction source generalizing type with
    | nil => cases found
    | cons c source ih =>
      by_cases bracket : c = '['
      · subst bracket
        rw [read?_bracket] at found
        obtain ⟨⟨element, after⟩, within, same⟩ := Option.map_eq_some_iff.mp found
        obtain ⟨rfl, rfl⟩ := Prod.mk.inj same
        obtain ⟨rfl, named⟩ := ih within
        exact ⟨rfl, named⟩
      · rw [read?_letter bracket] at found
        exact text_of_readElement? found
  · -- Here the type is given, and it is read off level by level.
    rintro ⟨rfl, named⟩
    induction type with
    | primitive type =>
      cases type <;> rfl
    | object name =>
      rw [text, List.cons_append, read?_letter (by decide), List.append_assoc]
      exact readElement?_name named.1 named.2 rest
    | array element ih =>
      rw [text, List.cons_append, read?_bracket, ih named]
      rfl

theorem read?_close (rest : List Char) : read? (')' :: rest) = none := by
  rw [read?_letter (by decide)]
  rfl

theorem text_length_pos (type : FieldType) : 0 < type.text.length := by
  cases type <;> simp [text]

theorem parse?_eq_some_iff : parse? source = some type ↔ source = type.text ∧ type.WellNamed := by
  have whole : parse? source = some type ↔ read? source = some (type, []) := by
    rw [parse?]
    split
    next found => simp [found]
    next unfinished =>
      constructor
      · intro parsed
        cases parsed
      · intro found
        exact absurd found (unfinished type)
  rw [whole, read?_eq_some_iff, List.append_nil]

end FieldType

namespace MethodType

/-- All class names in the type are well-formed. -/
def WellNamed (type : MethodType) : Prop :=
  (∀ parameter ∈ type.parameters, parameter.WellNamed) ∧ ∀ returned ∈ type.returned, returned.WellNamed

variable {source rest : List Char}

theorem readParameters?_close (rounds : Nat) (found : List FieldType) (rest : List Char) :
    readParameters? rounds found (')' :: rest) = some (found.reverse, rest) := by
  cases rounds <;> rfl

theorem readParameters?_next {type : FieldType} (rounds : Nat) (found : List FieldType)
    (read : FieldType.read? source = some (type, rest)) :
    readParameters? (rounds + 1) found source = readParameters? rounds (type :: found) rest := by
  have open_ : ∀ after, source ≠ ')' :: after := by
    rintro after rfl
    rw [FieldType.read?_close] at read
    cases read
  rw [readParameters?, read]
  exact open_

theorem text_of_readParameters? {rounds : Nat} {found all : List FieldType}
    (done : readParameters? rounds found source = some (all, rest)) :
    ∃ more, all = found.reverse ++ more ∧ source = more.flatMap FieldType.text ++ ')' :: rest ∧
      ∀ type ∈ more, type.WellNamed := by
  -- Each round reads one more type, until the closing parenthesis is met.
  induction rounds generalizing source found with
  | zero =>
    rw [readParameters?.eq_def] at done
    split at done
    next =>
      obtain ⟨rfl, rfl⟩ := Prod.mk.inj (Option.some.inj done)
      exact ⟨[], by simp⟩
    next => cases done
    next same _ => cases same
  | succ rounds ih =>
    rw [readParameters?.eq_def] at done
    split at done
    next =>
      obtain ⟨rfl, rfl⟩ := Prod.mk.inj (Option.some.inj done)
      exact ⟨[], by simp⟩
    next => cases done
    next same _ =>
      obtain rfl := Nat.succ.inj same
      split at done
      next type after read =>
        obtain ⟨rfl, named⟩ := FieldType.read?_eq_some_iff.mp read
        obtain ⟨more, rfl, rfl, others⟩ := ih done
        exact ⟨type :: more, by simp, by simp, List.forall_mem_cons.mpr ⟨named, others⟩⟩
      next => cases done

theorem readParameters?_text {rounds : Nat} (found more : List FieldType)
    (enough : (more.flatMap FieldType.text).length ≤ rounds) (named : ∀ type ∈ more, type.WellNamed) :
    readParameters? rounds found (more.flatMap FieldType.text ++ ')' :: rest) =
      some (found.reverse ++ more, rest) := by
  -- Each type takes a character, so there are never fewer rounds left than types.
  induction more generalizing rounds found with
  | nil => simpa using readParameters?_close rounds found rest
  | cons type more ih =>
    obtain ⟨named, others⟩ := List.forall_mem_cons.mp named
    have begun := type.text_length_pos
    rw [List.flatMap_cons, List.length_append] at enough
    obtain ⟨rounds, rfl⟩ := Nat.exists_eq_add_one_of_ne_zero (n := rounds) (by omega)
    have read : FieldType.read? (type.text ++ (more.flatMap FieldType.text ++ ')' :: rest)) =
        some (type, more.flatMap FieldType.text ++ ')' :: rest) :=
      FieldType.read?_eq_some_iff.mpr ⟨rfl, named⟩
    rw [List.flatMap_cons, List.append_assoc, readParameters?_next rounds found read,
      ih (type :: found) (by omega) others, List.reverse_cons, List.append_assoc, List.singleton_append]

theorem parse?_eq_some_iff {type : MethodType} :
    parse? source = some type ↔ source = type.text ∧ type.WellNamed := by
  constructor
  · intro parsed
    rw [parse?.eq_def] at parsed
    split at parsed
    next inner =>
      obtain ⟨⟨parameters, rest⟩, done, ended⟩ := Option.bind_eq_some_iff.mp parsed
      obtain ⟨more, rfl, rfl, named⟩ := text_of_readParameters? done
      dsimp only at ended
      split at ended
      next void =>
        obtain rfl := Option.some.inj ended
        exact ⟨by simp [text, void], named, by simp⟩
      next =>
        obtain ⟨returned, read, same⟩ := Option.bind_eq_some_iff.mp ended
        obtain rfl := Option.some.inj same
        obtain ⟨rfl, proper⟩ := FieldType.parse?_eq_some_iff.mp read
        exact ⟨by simp [text], named, by simpa using proper⟩
    next => cases parsed
  · rintro ⟨rfl, named, proper⟩
    obtain ⟨parameters, returned⟩ := type
    have done (rest : List Char) :
        readParameters? (parameters.flatMap FieldType.text ++ ')' :: rest).length []
          (parameters.flatMap FieldType.text ++ ')' :: rest) = some (parameters, rest) :=
      readParameters?_text [] parameters (by simp) named
    cases returned with
    | none =>
      rw [text, List.cons_append, parse?, done]
      rfl
    | some returned =>
      have read := FieldType.parse?_eq_some_iff.mpr ⟨rfl, proper returned rfl⟩
      -- The letter for nothing is no type, so the two endings cannot be confused.
      have inhabited : returned.text ≠ ['V'] := by
        intro void
        rw [void] at read
        cases read
      rw [text, List.cons_append, parse?, done]
      simp [inhabited, read]

end MethodType

/-- A method descriptor is the text of a method type. -/
theorem Descriptor.isMethod_iff {descriptor : String} : isMethod descriptor ↔
    ∃ type : MethodType, type.WellNamed ∧ descriptor.toList = type.text := by
  simp [isMethod, Option.isSome_iff_exists, MethodType.parse?_eq_some_iff, and_comm]

end JarRemap
