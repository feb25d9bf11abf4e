import JarRemap.Proofs.Signature.Read
import JarRemap.Signature.Rename
import Mathlib.Data.List.Forall2

/-!
# Renaming in signatures

A class type stands for a class and the classes around it, from the outermost to the innermost. In a
renamed signature it stands for what these classes are called now, and everything else is as before.
-/

namespace JarRemap.Signature

variable {names : Renaming}

/-! ## What a class type stands for -/

/-- The classes from the outer one to the innermost of those that are nested in it. -/
def binaryNames (outer : String) : List (List Char) → List String
  | [] => [outer]
  | simple :: rest => outer :: binaryNames (nestedName outer simple) rest

/-- What these classes are called where the outer one is called `new`: by their own new names, or
else by the names that they have within the class around them. -/
def newNames (names : Renaming) (old new : String) : List (List Char) → List String
  | [] => [new]
  | simple :: rest =>
    new :: newNames names (nestedName old simple)
      ((names (nestedName old simple)).getD (nestedName new simple)) rest

/-- A type variable keeps its name, and a class type comes to stand for what its classes are called. -/
def Name.Renamed (names : Renaming) : Name → Name → Prop
  | typeVariable old, typeVariable new => new = old
  | classType old oldNested, classType new newNested =>
    binaryNames (String.ofList new) newNested =
      newNames names (String.ofList old) (names.apply (String.ofList old)) oldNested
  | _, _ => False

/-- The inner class has a name within the outer one. -/
def Within (outer inner : String) : Prop := ∃ simple, simple ≠ [] ∧ inner = nestedName outer simple

/-- The new names of nested classes are names within the new names of the classes around them. -/
def Name.Nests (names : Renaming) : Name → Prop
  | typeVariable _ => True
  | classType top nested =>
    (newNames names (String.ofList top) (names.apply (String.ofList top)) nested).IsChain Within

theorem toList_nestedName (outer : String) (simple : List Char) :
    (nestedName outer simple).toList = outer.toList ++ '$' :: simple := by
  simp [nestedName]

theorem nestedName_injective {outer : String} {first second : List Char}
    (same : nestedName outer first = nestedName outer second) : first = second := by
  have texts := congrArg String.toList same
  simpa [toList_nestedName] using texts

theorem binaryNames_head (outer : String) (nested : List (List Char)) :
    (binaryNames outer nested).head? = some outer := by
  cases nested <;> rfl

theorem newNames_head (names : Renaming) (old new : String) (nested : List (List Char)) :
    (newNames names old new nested).head? = some new := by
  cases nested <;> rfl

theorem binaryNames_injective {outer : String} {first second : List (List Char)}
    (same : binaryNames outer first = binaryNames outer second) : first = second := by
  induction first generalizing outer second with
  | nil =>
    cases second with
    | nil => rfl
    -- A list of names is never empty, so there cannot be more names on one side.
    | cons simple rest =>
      have behind := (List.cons.inj same).2
      have begins := binaryNames_head (nestedName outer simple) rest
      rw [← behind] at begins
      cases begins
  | cons simple rest ih =>
    cases second with
    | nil =>
      have behind := (List.cons.inj same).2
      have begins := binaryNames_head (nestedName outer simple) rest
      rw [behind] at begins
      cases begins
    | cons simple' rest' =>
      have behind := (List.cons.inj same).2
      have begins := binaryNames_head (nestedName outer simple) rest
      rw [behind, binaryNames_head] at begins
      obtain rfl := nestedName_injective (Option.some.inj begins)
      rw [ih behind]

/-! ## What is written for a nested class -/

theorem nestedText_of_within (outer : String) (simple old : List Char) :
    nestedText outer (nestedName outer simple) old = simple := by
  have spelled : (nestedName outer simple).toList = (nestedName outer []).toList ++ simple := by
    simp [toList_nestedName]
  rw [nestedText, spelled, (Text.after?_eq_some_iff _ _ simple).mpr rfl]

theorem nesting_old (names : Renaming) (old new : String) (simple : List Char) :
    (nesting names old new simple).old = nestedName old simple := by
  simp only [nesting]
  split <;> rfl

theorem nesting_new (names : Renaming) (old new : String) (simple : List Char) :
    (nesting names old new simple).new =
      (names (nestedName old simple)).getD (nestedName new simple) := by
  simp only [nesting]
  split
  next given => rw [given]; rfl
  next silent => rw [silent]; rfl

theorem nesting_written {names : Renaming} {old new : String} {simple : List Char}
    (within : Within new (nesting names old new simple).new) :
    nestedName new (nesting names old new simple).written = (nesting names old new simple).new := by
  simp only [nesting] at within ⊢
  split at within
  next given =>
    obtain ⟨inner, -, rfl⟩ := within
    rw [nestedText_of_within]
  next silent => rfl

theorem renameNested_cons (names : Renaming) (old new : String) (segment : Segment)
    (rest : List Segment) :
    ∃ first, renameNested names old new (segment :: rest) = first ::
        renameNested names (nestedName old segment.name) (nesting names old new segment.name).new rest ∧
      first.name = (nesting names old new segment.name).written := by
  cases segment <;> exact ⟨_, by rw [renameNested, nesting_old]; rfl, rfl⟩

theorem binaryNames_renameNested {old new : String} {nested : List Segment}
    (nests : (newNames names old new (nested.map Segment.name)).IsChain Within) :
    binaryNames new ((renameNested names old new nested).map Segment.name) =
      newNames names old new (nested.map Segment.name) := by
  -- The names around the class are passed down: both its old name and its new one are made of them.
  induction nested generalizing old new with
  | nil => rfl
  | cons segment rest ih =>
    obtain ⟨first, renamed, called⟩ := renameNested_cons names old new segment rest
    rw [List.map_cons, newNames, ← nesting_new, List.isChain_cons] at nests
    have within : Within new (nesting names old new segment.name).new :=
      nests.1 _ (newNames_head _ _ _ _)
    rw [renamed, List.map_cons, List.map_cons, binaryNames, newNames, called, nesting_written within,
      ih nests.2, ← nesting_new]

/-! ## Names and shapes of renamed types -/

mutual

/-- The type without the names in it. -/
def Reference.shape : Reference → Reference
  | .variable _ => .variable []
  | .simpleArray element => .simpleArray element
  | .array element => .array element.shape
  | .object head nested => .object head.shape (segmentsShape nested)

def Segment.shape : Segment → Segment
  | .plain _ => .plain []
  | .generic _ arguments => .generic [] (argumentsShape arguments)

def segmentsShape : List Segment → List Segment
  | [] => []
  | segment :: others => segment.shape :: segmentsShape others

def Argument.shape : Argument → Argument
  | .any => .any
  | .exact type => .exact type.shape
  | .bounded wildcard type => .bounded wildcard type.shape

def argumentsShape : List Argument → List Argument
  | [] => []
  | argument :: others => argument.shape :: argumentsShape others

end

mutual

theorem Reference.rename_shape (type : Reference) : (type.rename names).shape = type.shape := by
  match type with
  | .variable _ => rfl
  | .simpleArray _ => rfl
  | .array element => rw [Reference.rename, Reference.shape, element.rename_shape]; rfl
  | .object (.plain _) nested =>
    rw [Reference.rename, Reference.shape, renameNested_shape nested]
    rfl
  | .object (.generic _ arguments) nested =>
    rw [Reference.rename, Reference.shape, renameNested_shape nested, Segment.shape,
      renameArguments_shape arguments]
    rfl

theorem renameNested_shape (nested : List Segment) {old new : String} :
    segmentsShape (renameNested names old new nested) = segmentsShape nested := by
  match nested with
  | [] => rfl
  | .plain _ :: rest => rw [renameNested, segmentsShape, renameNested_shape rest]; rfl
  | .generic _ arguments :: rest =>
    rw [renameNested, segmentsShape, renameNested_shape rest, Segment.shape,
      renameArguments_shape arguments]
    rfl

theorem Argument.rename_shape (argument : Argument) :
    (argument.rename names).shape = argument.shape := by
  match argument with
  | .any => rfl
  | .exact type => rw [Argument.rename, Argument.shape, type.rename_shape]; rfl
  | .bounded _ type => rw [Argument.rename, Argument.shape, type.rename_shape]; rfl

theorem renameArguments_shape (arguments : List Argument) :
    argumentsShape (renameArguments names arguments) = argumentsShape arguments := by
  match arguments with
  | [] => rfl
  | argument :: rest =>
    rw [renameArguments, argumentsShape, argument.rename_shape, renameArguments_shape rest]
    rfl

end

open List (Forall₂)

theorem renamed_object {head : List Char} {nested : List Segment}
    (nests : (Name.classType head (nested.map Segment.name)).Nests names) {new : Segment}
    (called : new.name = (names.apply (String.ofList head)).toList) :
    Name.Renamed names (.classType head (nested.map Segment.name))
      (.classType new.name ((renameNested names (String.ofList head) (names.apply (String.ofList head))
        nested).map Segment.name)) := by
  rw [Name.Renamed, called, String.ofList_toList]
  exact binaryNames_renameNested nests

mutual

theorem Reference.rename_names (type : Reference) (nests : ∀ name ∈ type.names, name.Nests names) :
    Forall₂ (Name.Renamed names) type.names (type.rename names).names := by
  match type with
  | .variable name => exact .cons rfl .nil
  | .simpleArray _ => exact .nil
  | .array element => exact element.rename_names nests
  | .object (.plain name) nested =>
    rw [Reference.names, List.forall_mem_cons, List.forall_mem_append] at nests
    rw [Reference.rename]
    exact .cons (renamed_object nests.1 rfl) (renameNested_names nested nests.2.2)
  | .object (.generic name arguments) nested =>
    rw [Reference.names, List.forall_mem_cons, List.forall_mem_append] at nests
    rw [Reference.rename]
    exact .cons (renamed_object nests.1 rfl)
      (List.rel_append (renameArguments_names arguments nests.2.1) (renameNested_names nested nests.2.2))

theorem renameNested_names (nested : List Segment)
    (nests : ∀ name ∈ segmentsNames nested, name.Nests names) {old new : String} :
    Forall₂ (Name.Renamed names) (segmentsNames nested)
      (segmentsNames (renameNested names old new nested)) := by
  match nested with
  | [] => exact .nil
  | .plain _ :: rest => exact renameNested_names rest nests
  | .generic _ arguments :: rest =>
    rw [segmentsNames, List.forall_mem_append] at nests
    exact List.rel_append (renameArguments_names arguments nests.1) (renameNested_names rest nests.2)

theorem Argument.rename_names (argument : Argument)
    (nests : ∀ name ∈ argument.names, name.Nests names) :
    Forall₂ (Name.Renamed names) argument.names (argument.rename names).names := by
  match argument with
  | .any => exact .nil
  | .exact type => exact type.rename_names nests
  | .bounded _ type => exact type.rename_names nests

theorem renameArguments_names (arguments : List Argument)
    (nests : ∀ name ∈ argumentsNames arguments, name.Nests names) :
    Forall₂ (Name.Renamed names) (argumentsNames arguments)
      (argumentsNames (renameArguments names arguments)) := by
  match arguments with
  | [] => exact .nil
  | argument :: rest =>
    rw [argumentsNames, List.forall_mem_append] at nests
    exact List.rel_append (argument.rename_names nests.1) (renameArguments_names rest nests.2)

end

mutual

/-- A type is known when its names and its shape are, whatever names follow its own. -/
theorem Reference.eq_of_shape {first second : Reference} {rest rest' : List Name}
    (shape : first.shape = second.shape) (names : first.names ++ rest = second.names ++ rest') :
    first = second ∧ rest = rest' := by
  match first with
  | .variable _ =>
    cases second <;> simp only [Reference.shape, reduceCtorEq] at shape
    simpa [Reference.names] using names
  | .simpleArray _ =>
    cases second <;> simp only [Reference.shape, reduceCtorEq, Reference.simpleArray.injEq] at shape
    exact ⟨congrArg _ shape, names⟩
  | .array element =>
    cases second <;> simp only [Reference.shape, reduceCtorEq, Reference.array.injEq] at shape
    obtain ⟨rfl, rest⟩ := Reference.eq_of_shape shape names
    exact ⟨rfl, rest⟩
  | .object head nested =>
    cases second <;> simp only [Reference.shape, reduceCtorEq, Reference.object.injEq] at shape
    simp only [Reference.names, List.cons_append, List.cons.injEq, Name.classType.injEq,
      List.append_assoc] at names
    -- The first name belongs to the type itself, and the others to its parts from left to right.
    obtain ⟨⟨top, simples⟩, others⟩ := names
    obtain ⟨rfl, behind⟩ := Segment.eq_of_shape shape.1 top others
    obtain ⟨rfl, rest⟩ := segments_eq_of_shape shape.2 simples behind
    exact ⟨rfl, rest⟩

theorem Segment.eq_of_shape {first second : Segment} {rest rest' : List Name}
    (shape : first.shape = second.shape) (name : first.name = second.name)
    (names : first.names ++ rest = second.names ++ rest') : first = second ∧ rest = rest' := by
  match first with
  | .plain _ =>
    cases second <;> simp only [Segment.shape, reduceCtorEq] at shape
    exact ⟨congrArg _ name, names⟩
  | .generic _ arguments =>
    cases second <;> simp only [Segment.shape, reduceCtorEq, Segment.generic.injEq, true_and] at shape
    obtain ⟨rfl, rest⟩ := arguments_eq_of_shape shape names
    exact ⟨congrArg (Segment.generic · arguments) name, rest⟩

theorem segments_eq_of_shape {first second : List Segment} {rest rest' : List Name}
    (shape : segmentsShape first = segmentsShape second)
    (simples : first.map Segment.name = second.map Segment.name)
    (names : segmentsNames first ++ rest = segmentsNames second ++ rest') :
    first = second ∧ rest = rest' := by
  match first, second with
  | [], [] => exact ⟨rfl, names⟩
  | [], _ :: _ => cases simples
  | _ :: _, [] => cases simples
  | segment :: others, segment' :: others' =>
    simp only [segmentsShape, List.cons.injEq] at shape
    simp only [List.map_cons, List.cons.injEq] at simples
    simp only [segmentsNames, List.append_assoc] at names
    obtain ⟨rfl, behind⟩ := Segment.eq_of_shape shape.1 simples.1 names
    obtain ⟨rfl, rest⟩ := segments_eq_of_shape shape.2 simples.2 behind
    exact ⟨rfl, rest⟩

theorem Argument.eq_of_shape {first second : Argument} {rest rest' : List Name}
    (shape : first.shape = second.shape) (names : first.names ++ rest = second.names ++ rest') :
    first = second ∧ rest = rest' := by
  match first with
  | .any =>
    cases second <;> simp only [Argument.shape, reduceCtorEq] at shape
    exact ⟨rfl, names⟩
  | .exact type =>
    cases second <;> simp only [Argument.shape, reduceCtorEq, Argument.exact.injEq] at shape
    obtain ⟨rfl, rest⟩ := Reference.eq_of_shape shape names
    exact ⟨rfl, rest⟩
  | .bounded wildcard type =>
    cases second <;> simp only [Argument.shape, reduceCtorEq, Argument.bounded.injEq] at shape
    obtain ⟨rfl, rest⟩ := Reference.eq_of_shape shape.2 names
    exact ⟨congrArg (Argument.bounded · type) shape.1, rest⟩

theorem arguments_eq_of_shape {first second : List Argument} {rest rest' : List Name}
    (shape : argumentsShape first = argumentsShape second)
    (names : argumentsNames first ++ rest = argumentsNames second ++ rest') :
    first = second ∧ rest = rest' := by
  match first, second with
  | [], [] => exact ⟨rfl, names⟩
  | [], _ :: _ => cases shape
  | _ :: _, [] => cases shape
  | argument :: others, argument' :: others' =>
    simp only [argumentsShape, List.cons.injEq] at shape
    simp only [argumentsNames, List.append_assoc] at names
    obtain ⟨rfl, behind⟩ := Argument.eq_of_shape shape.1 names
    obtain ⟨rfl, rest⟩ := arguments_eq_of_shape shape.2 behind
    exact ⟨rfl, rest⟩

end

/-! ## Signatures -/

def JavaType.shape : JavaType → JavaType
  | simple type => simple type
  | reference type => reference type.shape

/-- The type parameters keep their own names. -/
def TypeParameter.shape (parameter : TypeParameter) : TypeParameter :=
  { parameter with bounds := parameter.bounds.map (·.map Reference.shape) }

def Body.shape : Body → Body
  | method parameters returned thrown =>
    .method (parameters.map JavaType.shape) returned.shape (thrown.map Reference.shape)
  | types all => .types (all.map Reference.shape)

theorem JavaType.rename_shape (type : JavaType) : (type.rename names).shape = type.shape := by
  cases type with
  | simple type => rfl
  | reference type => exact congrArg reference type.rename_shape

theorem TypeParameter.rename_shape (parameter : TypeParameter) :
    (parameter.rename names).shape = parameter.shape := by
  simp [TypeParameter.rename, TypeParameter.shape, Function.comp_def, Reference.rename_shape]

theorem Body.rename_shape (body : Body) : (body.rename names).shape = body.shape := by
  cases body <;>
  simp [Body.rename, Body.shape, Function.comp_def, Reference.rename_shape, JavaType.rename_shape]

section

variable {α : Type} {names : Renaming}

theorem forall₂_flatMap {R : Name → Name → Prop} {namesOf : α → List Name} {change : α → α}
    {items : List α} (each : ∀ item ∈ items, Forall₂ R (namesOf item) (namesOf (change item))) :
    Forall₂ R (items.flatMap namesOf) ((items.map change).flatMap namesOf) := by
  induction items with
  | nil => exact .nil
  | cons item items ih =>
    rw [List.forall_mem_cons] at each
    exact List.rel_append each.1 (ih each.2)

theorem JavaType.rename_names (type : JavaType) (nests : ∀ name ∈ type.names, name.Nests names) :
    Forall₂ (Name.Renamed names) type.names (type.rename names).names := by
  cases type with
  | simple type => exact .nil
  | reference type => exact type.rename_names nests

theorem TypeParameter.rename_names (parameter : TypeParameter)
    (nests : ∀ name ∈ parameter.names, name.Nests names) :
    Forall₂ (Name.Renamed names) parameter.names (parameter.rename names).names := by
  refine forall₂_flatMap fun bound member => ?_
  cases bound with
  | none => exact .nil
  | some type =>
    exact type.rename_names fun name here => nests name (List.mem_flatMap.mpr ⟨some type, member, here⟩)

theorem Body.rename_names (body : Body) (nests : ∀ name ∈ body.names, name.Nests names) :
    Forall₂ (Name.Renamed names) body.names (body.rename names).names := by
  cases body with
  | method parameters returned thrown =>
    simp only [Body.names, List.forall_mem_append] at nests
    obtain ⟨⟨inParameters, inReturned⟩, inThrown⟩ := nests
    refine List.rel_append (List.rel_append (forall₂_flatMap fun type member => ?_)
      (returned.rename_names inReturned)) (forall₂_flatMap fun type member => ?_)
    · exact type.rename_names fun name here =>
        inParameters name (List.mem_flatMap.mpr ⟨type, member, here⟩)
    · exact type.rename_names fun name here =>
        inThrown name (List.mem_flatMap.mpr ⟨type, member, here⟩)
  | types all =>
    exact forall₂_flatMap fun type member => type.rename_names fun name here =>
      nests name (List.mem_flatMap.mpr ⟨type, member, here⟩)

end

/-! ## What shape and names tell -/

/-- A part is known when its shape and its names are, whatever names follow its own. -/
def KnownBy {α σ : Type} (shapeOf : α → σ) (namesOf : α → List Name) : Prop :=
  ∀ ⦃first second : α⦄ ⦃rest rest' : List Name⦄, shapeOf first = shapeOf second →
    namesOf first ++ rest = namesOf second ++ rest' → first = second ∧ rest = rest'

section

variable {α σ : Type} {shapeOf : α → σ} {namesOf : α → List Name}

theorem KnownBy.list (known : KnownBy shapeOf namesOf) :
    KnownBy (List.map shapeOf) (List.flatMap namesOf) := by
  intro first
  induction first with
  | nil =>
    intro second rest rest' shape names
    obtain rfl := List.map_eq_nil_iff.mp shape.symm
    exact ⟨rfl, names⟩
  | cons item items ih =>
    intro second rest rest' shape names
    obtain ⟨item', items', rfl, shape', shapes⟩ := List.map_eq_cons_iff.mp shape.symm
    rw [List.flatMap_cons, List.flatMap_cons, List.append_assoc, List.append_assoc] at names
    obtain ⟨rfl, behind⟩ := known shape'.symm names
    obtain ⟨rfl, rest⟩ := ih shapes.symm behind
    exact ⟨rfl, rest⟩

theorem KnownBy.option (known : KnownBy shapeOf namesOf) :
    KnownBy (Option.map shapeOf) (·.elim [] namesOf) := by
  intro first second rest rest' shape names
  cases first with
  | none =>
    obtain rfl := Option.map_eq_none_iff.mp shape.symm
    exact ⟨rfl, names⟩
  | some item =>
    obtain ⟨item', rfl, shape'⟩ := Option.map_eq_some_iff.mp shape.symm
    obtain ⟨rfl, rest⟩ := known shape'.symm names
    exact ⟨rfl, rest⟩

end

theorem Reference.known : KnownBy Reference.shape Reference.names :=
  fun _ _ _ _ => Reference.eq_of_shape

theorem JavaType.known : KnownBy JavaType.shape JavaType.names := by
  intro first second rest rest' shape names
  cases first <;> cases second <;>
    simp only [JavaType.shape, reduceCtorEq, simple.injEq, reference.injEq] at shape
  · exact ⟨congrArg _ shape, names⟩
  · obtain ⟨rfl, rest⟩ := Reference.known shape names
    exact ⟨rfl, rest⟩

theorem TypeParameter.known : KnownBy TypeParameter.shape TypeParameter.names := by
  rintro ⟨name, bounds⟩ ⟨name', bounds'⟩ rest rest' shape names
  simp only [TypeParameter.shape, mk.injEq] at shape
  obtain ⟨rfl, shape⟩ := shape
  obtain ⟨rfl, rest⟩ := Reference.known.option.list shape names
  exact ⟨rfl, rest⟩

theorem Body.known : KnownBy Body.shape Body.names := by
  intro first second rest rest' shape names
  cases first <;> cases second <;>
    simp only [Body.shape, reduceCtorEq, method.injEq, types.injEq] at shape
  · simp only [Body.names, List.append_assoc] at names
    obtain ⟨rfl, behind⟩ := JavaType.known.list shape.1 names
    obtain ⟨rfl, others⟩ := JavaType.known shape.2.1 behind
    obtain ⟨rfl, rest⟩ := Reference.known.list shape.2.2 others
    exact ⟨rfl, rest⟩
  · obtain ⟨rfl, rest⟩ := Reference.known.list shape names
    exact ⟨rfl, rest⟩

/-! ## Names that stay names -/

theorem mem_of_nestedName {outer inner : String} {simple : List Char}
    (called : inner = nestedName outer simple) {c : Char} (here : c ∈ simple) : c ∈ inner.toList := by
  rw [called, toList_nestedName]
  exact List.mem_append_right _ (List.mem_cons_of_mem _ here)

/-- A class that is not renamed has a proper name by its old name, and one that is by its new one. -/
theorem nested_proper (proper : ∀ old new, names old = some new → EndsBefore classSigns new.toList)
    {old new : String} {nested nested' : List (List Char)}
    (given : ∀ simple ∈ nested, EndsBefore classSigns simple)
    (nests : (newNames names old new nested).IsChain Within)
    (renamed : binaryNames new nested' = newNames names old new nested) :
    ∀ simple ∈ nested', EndsBefore classSigns simple := by
  induction nested generalizing old new nested' with
  | nil =>
    have single : binaryNames new nested' = binaryNames new [] := renamed
    obtain rfl := binaryNames_injective single
    simp
  | cons simple rest ih =>
    rw [List.forall_mem_cons] at given
    rw [newNames, List.isChain_cons] at nests
    have head := newNames_head names (nestedName old simple)
      ((names (nestedName old simple)).getD (nestedName new simple)) rest
    cases nested' with
    | nil =>
      have behind := (List.cons.inj renamed).2
      rw [← behind] at head
      cases head
    | cons simple' rest' =>
      have behind := (List.cons.inj renamed).2
      have called := binaryNames_head (nestedName new simple') rest'
      rw [behind, head] at called
      have called := Option.some.inj called
      obtain ⟨inner, nonempty, within⟩ := nests.1 _ head
      obtain rfl := nestedName_injective (within.symm.trans called)
      rw [called] at behind nests
      refine List.forall_mem_cons.mpr ⟨⟨nonempty, fun c here => ?_⟩, ih given.2 nests.2 behind⟩
      -- A new name of its own holds no sign, nor does the old one, which is kept
      -- within the new outer name.
      cases known : names (nestedName old simple) with
      | some renamed => exact (proper _ _ known).2 c (mem_of_nestedName (by simpa [known] using called) here)
      | none =>
        rw [known] at called
        obtain rfl := nestedName_injective (show nestedName new simple = _ from called)
        exact given.1.2 c here

theorem Name.Renamed.proper
    (proper : ∀ old new, names old = some new → EndsBefore classSigns new.toList) {old new : Name}
    (renamed : old.Renamed names new) (given : old.Proper) (nests : old.Nests names) : new.Proper := by
  match old, new with
  | .typeVariable _, .typeVariable _ =>
    cases renamed
    exact given
  | .classType top nested, .classType top' nested' =>
    have same : binaryNames (String.ofList top') nested' = _ := renamed
    -- The outermost class is renamed by itself. What follows is put together from the names of all
    -- classes.
    have called : String.ofList top' = names.apply (String.ofList top) := by
      have head := newNames_head names (String.ofList top) (names.apply (String.ofList top)) nested
      rw [← same, binaryNames_head] at head
      exact Option.some.inj head
    rw [called] at same
    refine ⟨?_, nested_proper proper given.2 nests same⟩
    cases known : names (String.ofList top) with
    | some inner =>
      rw [Renaming.apply, known] at called
      have ends := proper _ _ known
      rwa [show inner = String.ofList top' from called.symm, String.toList_ofList] at ends
    | none =>
      rw [Renaming.apply, known] at called
      rw [String.ofList_injective (show String.ofList top' = String.ofList top from called)]
      exact given.1

/-! ## Maps that rename nothing -/

theorem newNames_unchanged (nothing : ∀ old new, names old = some new → new = old) (outer : String)
    (nested : List (List Char)) : newNames names outer outer nested = binaryNames outer nested := by
  induction nested generalizing outer with
  | nil => rfl
  | cons simple rest ih =>
    have same : (names (nestedName outer simple)).getD (nestedName outer simple) =
        nestedName outer simple := by
      cases known : names (nestedName outer simple) with
      | none => rfl
      | some new => exact nothing _ _ known
    rw [newNames, binaryNames, same, ih]

theorem binaryNames_isChain {nested : List (List Char)} (given : ∀ simple ∈ nested, simple ≠ [])
    (outer : String) : (binaryNames outer nested).IsChain Within := by
  induction nested generalizing outer with
  | nil => exact .singleton _
  | cons simple rest ih =>
    rw [List.forall_mem_cons] at given
    refine List.isChain_cons.mpr ⟨fun inner here => ?_, ih given.2 _⟩
    rw [binaryNames_head] at here
    obtain rfl := Option.some.inj here
    exact ⟨simple, given.1, rfl⟩

theorem apply_unchanged (nothing : ∀ old new, names old = some new → new = old) (old : String) :
    names.apply old = old := by
  rw [Renaming.apply]
  cases known : names old with
  | none => rfl
  | some new => exact nothing _ _ known

theorem Name.Proper.nests (nothing : ∀ old new, names old = some new → new = old) {name : Name}
    (proper : name.Proper) : name.Nests names := by
  match name with
  | .typeVariable _ => trivial
  | .classType top nested =>
    rw [Name.Nests, apply_unchanged nothing, newNames_unchanged nothing]
    exact binaryNames_isChain (fun simple here => (proper.2 simple here).1) _

/-- What is called in a given way can be written in one way only. -/
theorem Name.Renamed.unique {old new new' : Name} (first : old.Renamed names new)
    (second : old.Renamed names new') : new = new' := by
  match old, new, new' with
  | .typeVariable _, .typeVariable _, .typeVariable _ =>
    rw [show _ = _ from first, show _ = _ from second]
  | .classType _ _, .classType top nested, .classType top' nested' =>
    have same : binaryNames (String.ofList top) nested = binaryNames (String.ofList top') nested' :=
      Eq.trans first (Eq.symm second)
    have head := binaryNames_head (String.ofList top) nested
    rw [same, binaryNames_head] at head
    obtain rfl := String.ofList_injective (Option.some.inj head)
    rw [binaryNames_injective same]

theorem Name.renamed_of_nothing (nothing : ∀ old new, names old = some new → new = old)
    (name : Name) : name.Renamed names name := by
  match name with
  | .typeVariable _ => rfl
  | .classType top nested => rw [Name.Renamed, apply_unchanged nothing, newNames_unchanged nothing]

end JarRemap.Signature

namespace JarRemap

namespace Signature

open List (Forall₂)

variable {names : Renaming} {signature : Signature}

/-- The signature without the names of classes and the uses of type variables. -/
def shape (signature : Signature) : Signature :=
  ⟨signature.parameters.map (·.map TypeParameter.shape), signature.body.shape⟩

theorem names_eq (signature : Signature) : signature.names =
    signature.parameters.elim [] (List.flatMap TypeParameter.names) ++ signature.body.names := by
  obtain ⟨_ | parameters, body⟩ := signature <;> rfl

theorem known : KnownBy shape Signature.names := by
  rintro ⟨parameters, body⟩ ⟨parameters', body'⟩ rest rest' shape names
  simp only [Signature.shape, mk.injEq] at shape
  simp only [names_eq, List.append_assoc] at names
  obtain ⟨rfl, behind⟩ := TypeParameter.known.list.option shape.1 names
  obtain ⟨rfl, rest⟩ := Body.known shape.2 behind
  exact ⟨rfl, rest⟩

theorem eq_of_shape {first second : Signature} (shape : first.shape = second.shape)
    (names : first.names = second.names) : first = second :=
  (@known first second [] [] shape (by rw [names])).1

/-- There is one signature only in which every class type stands for what its classes are called and
everything else is as before. -/
theorem eq_of_renamed {first second : Signature} (shape : first.shape = second.shape)
    (here : Forall₂ (Name.Renamed names) signature.names first.names)
    (there : Forall₂ (Name.Renamed names) signature.names second.names) : first = second := by
  have unique : Relator.RightUnique (Name.Renamed names) := fun _ _ _ => Name.Renamed.unique
  exact eq_of_shape shape (unique.forall₂ here there)

theorem rename_shape : (signature.rename names).shape = signature.shape := by
  simp [shape, rename, Function.comp_def, TypeParameter.rename_shape, Body.rename_shape]

theorem rename_names (nests : ∀ name ∈ signature.names, name.Nests names) :
    Forall₂ (Name.Renamed names) signature.names (signature.rename names).names := by
  obtain ⟨parameters, body⟩ := signature
  rw [names_eq, List.forall_mem_append] at nests
  rw [names_eq, names_eq]
  refine List.rel_append ?_ (body.rename_names nests.2)
  cases parameters with
  | none => exact .nil
  | some parameters =>
    exact forall₂_flatMap fun parameter member => parameter.rename_names fun name here =>
      nests.1 name (List.mem_flatMap.mpr ⟨parameter, member, here⟩)

theorem forall_of_forall₂ {α : Type} {R : α → α → Prop} {P : α → Prop} {first second : List α}
    (related : Forall₂ R first second) (each : ∀ a ∈ first, ∀ b, R a b → P b) :
    ∀ b ∈ second, P b := by
  induction related with
  | nil => simp
  | cons here _ ih =>
    rw [List.forall_mem_cons] at each ⊢
    exact ⟨each.1 _ here, ih each.2⟩

theorem parameters_rename (signature : Signature) : (signature.rename names).parameters.getD [] =
    (signature.parameters.getD []).map (TypeParameter.rename names) := by
  obtain ⟨_ | parameters, body⟩ := signature <;> rfl

theorem TypeParameter.Proper.rename {parameter : TypeParameter} (proper : parameter.Proper) :
    (parameter.rename names).Proper :=
  ⟨proper.named, by simpa [TypeParameter.rename] using proper.bounded⟩

theorem Parted.rename {first second : TypeParameter} (parted : Parted first second) :
    Parted (first.rename names) (second.rename names) := by
  intro silent
  rw [TypeParameter.rename, List.getLast?_map, Option.map_eq_some_iff] at silent
  obtain ⟨last, found, silent⟩ := silent
  rw [Option.map_eq_none_iff] at silent
  exact parted (silent ▸ found)

theorem WellNamed.rename (named : signature.WellNamed)
    (proper : ∀ old new, names old = some new → EndsBefore classSigns new.toList)
    (nests : ∀ name ∈ signature.names, name.Nests names) : (signature.rename names).WellNamed := by
  refine ⟨forall_of_forall₂ (rename_names nests) fun old here new renamed =>
    renamed.proper proper (named.names old here) (nests old here), ?_⟩
  rw [parameters_rename, List.forall_mem_map]
  exact fun parameter member => (named.parameters parameter member).rename

theorem Unmistaken.rename (unmistaken : signature.Unmistaken) :
    (signature.rename names).Unmistaken := by
  rw [Unmistaken, parameters_rename, List.isChain_map]
  exact unmistaken.imp fun _ _ => Parted.rename

theorem renameText_text (named : signature.WellNamed) (unmistaken : signature.Unmistaken) :
    renameText names (String.ofList signature.text) =
      .ok (String.ofList (signature.rename names).text) := by
  rw [renameText, read_text signature named unmistaken]

/-- In a renamed signature every class type stands for what its classes are called, everything else is
as before, and that is what the new text says. A map that renames nothing returns the text unchanged. -/
theorem renameText_renames (signature : Signature) (named : signature.WellNamed)
    (unmistaken : signature.Unmistaken) (names : Renaming) :
    ((∀ old new, names old = some new → EndsBefore classSigns new.toList) →
      (∀ name ∈ signature.names, name.Nests names) →
      ∃ renamed : Signature,
        renameText names (String.ofList signature.text) = .ok (String.ofList renamed.text) ∧
        renamed.shape = signature.shape ∧
        Forall₂ (Name.Renamed names) signature.names renamed.names ∧
        read (String.ofList renamed.text) = .ok renamed) ∧
    ((∀ old new, names old = some new → new = old) →
      renameText names (String.ofList signature.text) = .ok (String.ofList signature.text)) := by
  refine ⟨fun proper nests => ⟨signature.rename names, renameText_text named unmistaken, rename_shape,
    rename_names nests, read_text _ (named.rename proper nests) unmistaken.rename⟩, fun nothing => ?_⟩
  have renamed := rename_names fun name here => (named.names name here).nests nothing
  -- Both the renamed signature and the signature itself have all names that are asked for, and there is
  -- only one that has.
  have itself : Forall₂ (Name.Renamed names) signature.names signature.names :=
    List.forall₂_same.mpr fun name _ => Name.renamed_of_nothing nothing name
  rw [renameText_text named unmistaken, eq_of_renamed rename_shape renamed itself]

/-- A generic method with a parameter of a nested class type. -/
def generic : Signature :=
  ⟨some [⟨['T'], [some (.object (.plain "Object".toList) [])]⟩,
      ⟨['K'], [none, some (.object (.generic "Comparable".toList [.exact (.variable ['K'])]) [])]⟩],
    .method
      [.reference (.object (.generic "a/C".toList [.exact (.variable ['T'])])
        [.generic ['D'] [.bounded .super (.array (.object (.plain ['x']) []))], .plain ['E']]),
        .simple (.primitive .int)]
      (.reference (.object (.generic "List".toList [.any]) [])) [.variable ['K']]⟩

def widgets : Renaming
  | "a/C" => some "net/Widget"
  | "a/C$D" => some "net/Widget$Part"
  | "x" => some "net/X"
  | _ => none

theorem widgets_proper (old new : String) (given : widgets old = some new) :
    EndsBefore classSigns new.toList := by
  unfold widgets at given
  split at given <;> cases given <;> decide

theorem generic_unmistaken : generic.Unmistaken :=
  List.isChain_cons_cons.mpr ⟨fun silent => by simp at silent, .singleton _⟩

theorem generic_nests : ∀ name ∈ generic.names, name.Nests widgets := by
  have nested : Name.Nests widgets (.classType "a/C".toList [['D'], ['E']]) :=
    List.isChain_cons_cons.mpr ⟨⟨"Part".toList, by decide, by decide⟩,
      List.isChain_cons_cons.mpr ⟨⟨['E'], by decide, by decide⟩, .singleton _⟩⟩
  have names : generic.names = [.classType "Object".toList [], .classType "Comparable".toList [],
    .typeVariable ['K'], .classType "a/C".toList [['D'], ['E']], .typeVariable ['T'],
    .classType ['x'] [], .classType "List".toList [], .typeVariable ['K']] := rfl
  simp only [names, List.forall_mem_cons, List.not_mem_nil, false_implies, implies_true, and_true]
  exact ⟨.singleton _, .singleton _, trivial, nested, trivial, .singleton _, .singleton _, trivial⟩

theorem renameText_renames_generic :
    generic.WellNamed ∧ generic.Unmistaken ∧
    (∀ old new, widgets old = some new → EndsBefore classSigns new.toList) ∧
    (∀ name ∈ generic.names, name.Nests widgets) ∧
    renameText widgets "<T:LObject;K::LComparable<TK;>;>(La/C<TT;>.D<-[Lx;>.E;I)LList<*>;^TK;" =
      .ok "<T:LObject;K::LComparable<TK;>;>(Lnet/Widget<TT;>.Part<-[Lnet/X;>.E;I)LList<*>;^TK;" ∧
    renameText (fun _ => none)
        "<T:LObject;K::LComparable<TK;>;>(La/C<TT;>.D<-[Lx;>.E;I)LList<*>;^TK;" =
      .ok "<T:LObject;K::LComparable<TK;>;>(La/C<TT;>.D<-[Lx;>.E;I)LList<*>;^TK;" := by
  have named : generic.WellNamed := by decide
  have text : String.ofList generic.text =
      "<T:LObject;K::LComparable<TK;>;>(La/C<TT;>.D<-[Lx;>.E;I)LList<*>;^TK;" := by decide
  obtain ⟨renamed, said, shape, names, -⟩ :=
    (renameText_renames generic named generic_unmistaken widgets).1 widgets_proper generic_nests
  obtain rfl := eq_of_renamed (shape.trans rename_shape.symm) names (rename_names generic_nests)
  have unchanged := (renameText_renames generic named generic_unmistaken fun _ => none).2 nofun
  rw [text] at said unchanged
  refine ⟨named, generic_unmistaken, widgets_proper, generic_nests, said.trans ?_, unchanged⟩
  exact congrArg Except.ok (by decide)

/-- A bound that says nothing, and a parameter behind it whose name begins like a type. -/
def silentlyBounded : Signature :=
  ⟨some [⟨['A'], [none]⟩, ⟨['T'], [some (.object (.plain ['x']) [])]⟩],
    .types [.object (.plain ['x']) []]⟩

def moved : Renaming := fun name => if name = "x" then some "net/X" else none

/-- What its text is taken for: a single parameter with a bound. -/
def mistaken : Signature :=
  ⟨some [⟨['A'], [some (.variable [':', 'L', 'x'])]⟩], .types [.object (.plain ['x']) []]⟩

theorem moved_proper (old new : String) (given : moved old = some new) :
    EndsBefore classSigns new.toList := by
  simp only [moved, Option.ite_none_right_eq_some, Option.some.injEq] at given
  rw [← given.2]
  decide

/-- A type parameter is lost in the text where the bound before it says nothing: what its own bound
names is not renamed. -/
theorem renameText_silentlyBounded :
    String.ofList silentlyBounded.text = "<A:T:Lx;>Lx;" ∧ silentlyBounded.WellNamed ∧
    (∀ old new, moved old = some new → EndsBefore classSigns new.toList) ∧
    (∀ name ∈ silentlyBounded.names, name.Nests moved) ∧
    renameText moved "<A:T:Lx;>Lx;" = .ok "<A:T:Lx;>Lnet/X;" ∧
    ∀ renamed : Signature, renamed.shape = silentlyBounded.shape →
      Forall₂ (Name.Renamed moved) silentlyBounded.names renamed.names →
      String.ofList renamed.text = "<A:T:Lnet/X;>Lnet/X;" := by
  have nests : ∀ name ∈ silentlyBounded.names, name.Nests moved := by
    change ∀ name ∈ [Name.classType ['x'] [], .classType ['x'] []], _
    simp [Name.Nests, newNames]
  refine ⟨by decide, by decide, moved_proper, nests, ?_, fun renamed shape names => ?_⟩
  · have read : renameText moved (String.ofList mistaken.text) = _ :=
      renameText_text (by decide) (.singleton _)
    rwa [show String.ofList mistaken.text = "<A:T:Lx;>Lx;" by decide,
      show String.ofList (mistaken.rename moved).text = "<A:T:Lx;>Lnet/X;" by decide] at read
  · rw [eq_of_renamed (shape.trans rename_shape.symm) names (rename_names nests)]
    decide

end Signature

end JarRemap
