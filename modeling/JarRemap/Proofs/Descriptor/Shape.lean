import JarRemap.Proofs.Descriptor.Grammar
import JarRemap.Proofs.Descriptor.Rename

/-!
# Renaming keeps the shape of a descriptor

Renaming twice is renaming once by both maps, for every text. The pieces of a proper descriptor are
those of its types, so that a renamed type is read as the type with renamed classes.
-/

namespace JarRemap

namespace Renaming

/-- New names given by one map and then by the other. -/
def andThen (first second : Renaming) : Renaming := fun name => some (second.apply (first.apply name))

/-- No new name holds a semicolon. -/
def Plain (names : Renaming) : Prop := ∀ name renamed, names name = some renamed → ';' ∉ renamed.toList

/-- No new name is empty. -/
def Inhabited (names : Renaming) : Prop := ∀ name renamed, names name = some renamed → renamed ≠ ""

variable {names : Renaming} {name : String}

theorem apply_andThen (first second : Renaming) (name : String) :
    (first.andThen second).apply name = second.apply (first.apply name) := rfl

theorem Plain.apply (plain : names.Plain) (solid : ';' ∉ name.toList) : ';' ∉ (names.apply name).toList := by
  rw [Renaming.apply]
  cases renamed : names name with
  | none => exact solid
  | some result => exact plain name result renamed

theorem Inhabited.apply (inhabited : names.Inhabited) (begun : name ≠ "") : names.apply name ≠ "" := by
  rw [Renaming.apply]
  cases renamed : names name with
  | none => exact begun
  | some result => exact inhabited name result renamed

end Renaming

namespace Descriptor

variable {names first second : Renaming} {descriptor result : String}

/-! ## Any text -/

theorem solid_of_mem_classNames {name : String} (member : name ∈ classNames descriptor) :
    ';' ∉ name.toList := by
  rw [classNames] at member
  obtain ⟨piece, found, named⟩ := List.mem_filterMap.mp member
  cases parted : pieces? descriptor.toList with
  | none => simp [parted] at found
  | some pieces =>
    rw [parted] at found
    have proper := ((pieces?_eq_some_iff _ _).mp parted).2 piece found
    cases piece with
    | other c => cases named
    | name chars =>
      obtain rfl := Option.some.inj named
      rw [String.toList_ofList]
      exact proper

/-- Whether a text can be taken apart does not depend on the names. -/
theorem rename_ok (names : Renaming) (descriptor : String) :
    (∃ result, rename names descriptor = .ok result) ↔ (pieces? descriptor.toList).isSome := by
  simp [rename_ok_iff, Option.isSome_iff_exists]

theorem rename_unchanged (same : ∀ name, names.apply name = name)
    (renamed : rename names descriptor = .ok result) : result = descriptor := by
  obtain ⟨pieces, found, rfl⟩ := (rename_ok_iff _ _ _).mp renamed
  have kept : pieces.map (Piece.rename names) = pieces := by
    refine (List.map_congr_left fun piece _ => ?_).trans (List.map_id pieces)
    cases piece with
    | other c => rfl
    | name chars => simp [Piece.rename, same]
  rw [kept, ((pieces?_eq_some_iff _ _).mp found).1, String.ofList_toList]

/-- A renamed text has the renamed pieces, so renaming it again renames these. -/
theorem rename_rename (plain : first.Plain) :
    (rename first descriptor >>= rename second) = rename (first.andThen second) descriptor := by
  cases found : pieces? descriptor.toList with
  | none =>
    have fails (names : Renaming) : rename names descriptor = .error (.badDescriptor descriptor) := by
      rw [rename, found]
    rw [fails first, fails (first.andThen second)]
    rfl
  | some pieces =>
    have done (names : Renaming) : rename names descriptor =
        .ok (String.ofList ((pieces.map (Piece.rename names)).flatMap Piece.text)) := by
      rw [rename, found]
    -- No new name holds a semicolon, so the renamed text is parted where the first one was.
    have parted := pieces?_renamed found fun name member =>
      plain.apply (solid_of_mem_classNames member)
    have both : (pieces.map (Piece.rename first)).map (Piece.rename second) =
        pieces.map (Piece.rename (first.andThen second)) := by
      rw [List.map_map]
      refine List.map_congr_left fun piece _ => ?_
      cases piece with
      | other c => rfl
      | name chars => simp [Piece.rename, Renaming.apply_andThen]
    rw [done first, done (first.andThen second), ← both]
    change rename second _ = _
    rw [rename, String.toList_ofList, parted]

end Descriptor

/-! ## Types -/

namespace FieldType

open Descriptor

/-- The type with every class in it renamed. -/
def rename (names : Renaming) : FieldType → FieldType
  | primitive type => primitive type
  | object name => object (names.apply (String.ofList name)).toList
  | array element => array (element.rename names)

def pieces : FieldType → List Piece
  | primitive type => [.other type.letter]
  | object name => [.name name]
  | array element => .other '[' :: element.pieces

variable {names : Renaming}

theorem text_pieces (type : FieldType) : type.pieces.flatMap Piece.text = type.text := by
  induction type with
  | primitive type => rfl
  | object name => simp [pieces, Piece.text, text]
  | array element ih => simp [pieces, Piece.text, text, ih]

theorem proper_pieces {type : FieldType} (named : type.WellNamed) : ∀ piece ∈ type.pieces, piece.Proper := by
  induction type with
  | primitive type =>
    rw [pieces, List.forall_mem_singleton]
    cases type <;> decide
  | object name => exact List.forall_mem_singleton.mpr named.2
  | array element ih =>
    have bracket : (Piece.other '[').Proper := by decide
    exact List.forall_mem_cons.mpr ⟨bracket, ih named⟩

theorem pieces_rename (names : Renaming) (type : FieldType) :
    (type.rename names).pieces = type.pieces.map (Piece.rename names) := by
  induction type with
  | primitive type => rfl
  | object name => rfl
  | array element ih => simp [rename, pieces, Piece.rename, ih]

theorem slots_rename (names : Renaming) (type : FieldType) : (type.rename names).slots = type.slots := by
  cases type <;> rfl

theorem WellNamed.rename {type : FieldType} (named : type.WellNamed) (plain : names.Plain)
    (inhabited : names.Inhabited) : (type.rename names).WellNamed := by
  induction type with
  | primitive type => trivial
  | object name =>
    -- A name that is kept was proper before.
    obtain ⟨begun, solid⟩ := named
    have begun' : String.ofList name ≠ "" := by simpa using begun
    exact ⟨by simpa using inhabited.apply begun', plain.apply (by simpa using solid)⟩
  | array element ih => exact ih named

end FieldType

namespace MethodType

open Descriptor

def rename (names : Renaming) (type : MethodType) : MethodType :=
  ⟨type.parameters.map (FieldType.rename names), type.returned.map (FieldType.rename names)⟩

def pieces (type : MethodType) : List Piece :=
  .other '(' :: type.parameters.flatMap FieldType.pieces ++ .other ')' ::
    (type.returned.elim [.other 'V'] FieldType.pieces)

variable {names : Renaming}

theorem text_pieces (type : MethodType) : type.pieces.flatMap Piece.text = type.text := by
  obtain ⟨parameters, returned⟩ := type
  have inner : (parameters.flatMap FieldType.pieces).flatMap Piece.text = parameters.flatMap FieldType.text := by
    rw [List.flatMap_assoc]
    exact congrArg (List.flatMap · parameters) (funext FieldType.text_pieces)
  cases returned <;> simp [pieces, text, Piece.text, inner, FieldType.text_pieces]

theorem proper_pieces {type : MethodType} (named : type.WellNamed) : ∀ piece ∈ type.pieces, piece.Proper := by
  obtain ⟨parameters, returned⟩ := type
  obtain ⟨named, named'⟩ := named
  have marks : (Piece.other '(').Proper ∧ (Piece.other ')').Proper ∧ (Piece.other 'V').Proper := by decide
  simp only [pieces, List.cons_append, List.forall_mem_cons, List.forall_mem_append]
  refine ⟨marks.1, fun piece member => ?_, marks.2.1, ?_⟩
  · obtain ⟨type, found, within⟩ := List.mem_flatMap.mp member
    exact FieldType.proper_pieces (named type found) piece within
  · cases returned with
    | none => exact List.forall_mem_singleton.mpr marks.2.2
    | some type => exact FieldType.proper_pieces (named' type rfl)

theorem pieces_rename (names : Renaming) (type : MethodType) :
    (type.rename names).pieces = type.pieces.map (Piece.rename names) := by
  obtain ⟨parameters, returned⟩ := type
  cases returned <;>
    simp [rename, pieces, Piece.rename, List.map_flatMap, List.flatMap_map, FieldType.pieces_rename]

theorem WellNamed.rename {type : MethodType} (named : type.WellNamed) (plain : names.Plain)
    (inhabited : names.Inhabited) : (type.rename names).WellNamed := by
  refine ⟨fun parameter member => ?_, fun returned member => ?_⟩
  · obtain ⟨old, found, rfl⟩ := List.mem_map.mp member
    exact (named.1 old found).rename plain inhabited
  · obtain ⟨old, found, rfl⟩ := Option.map_eq_some_iff.mp member
    exact (named.2 old found).rename plain inhabited

end MethodType

namespace Descriptor

variable {names first second : Renaming} {descriptor : String}

/-- The text of proper pieces becomes that of the renamed ones. -/
theorem rename_of_pieces {pieces : List Piece} (proper : ∀ piece ∈ pieces, piece.Proper)
    (spelled : descriptor.toList = pieces.flatMap Piece.text) :
    rename names descriptor =
      .ok (String.ofList ((pieces.map (Piece.rename names)).flatMap Piece.text)) := by
  rw [rename, (pieces?_eq_some_iff _ _).mpr ⟨spelled.symm, proper⟩]

theorem rename_isField (plain : names.Plain) (inhabited : names.Inhabited) (field : isField descriptor) :
    ∃ result, rename names descriptor = .ok result ∧ isField result := by
  obtain ⟨type, parsed⟩ := Option.isSome_iff_exists.mp field
  obtain ⟨spelled, named⟩ := FieldType.parse?_eq_some_iff.mp parsed
  rw [← type.text_pieces] at spelled
  refine ⟨_, rename_of_pieces (FieldType.proper_pieces named) spelled, ?_⟩
  -- The renamed pieces are those of the renamed type, which is read from its text.
  rw [← FieldType.pieces_rename, FieldType.text_pieces, isField, String.toList_ofList,
    FieldType.parse?_eq_some_iff.mpr ⟨rfl, named.rename plain inhabited⟩]
  rfl

theorem rename_isMethod (plain : names.Plain) (inhabited : names.Inhabited) (method : isMethod descriptor) :
    ∃ result, rename names descriptor = .ok result ∧ isMethod result ∧
      parameterSlots result = parameterSlots descriptor := by
  obtain ⟨type, parsed⟩ := Option.isSome_iff_exists.mp method
  obtain ⟨spelled, named⟩ := MethodType.parse?_eq_some_iff.mp parsed
  rw [← type.text_pieces] at spelled
  have again : MethodType.parse? (type.rename names).text = some (type.rename names) :=
    MethodType.parse?_eq_some_iff.mpr ⟨rfl, named.rename plain inhabited⟩
  refine ⟨_, rename_of_pieces (MethodType.proper_pieces named) spelled, ?_⟩
  rw [← MethodType.pieces_rename, MethodType.text_pieces]
  constructor
  · rw [isMethod, String.toList_ofList, again]
    rfl
  · rw [parameterSlots, String.toList_ofList, again, parameterSlots, parsed]
    simp only [MethodType.rename, List.map_map, Function.comp_def, FieldType.slots_rename]

/-- Whether a text can be renamed does not depend on the map, and a map that renames nothing gives the
text back. Renaming by one map and then by another is renaming by both at once. A descriptor stays one,
and a method's parameters keep their slots. -/
theorem rename_functorial (descriptor : String) (first second : Renaming) (plain : first.Plain) :
    (∀ nothing : Renaming, (∀ name, nothing.apply name = name) →
      ((∃ result, rename first descriptor = .ok result) ↔
        rename nothing descriptor = .ok descriptor) ∧
      ∀ result, rename nothing descriptor = .ok result → result = descriptor) ∧
    (rename first descriptor >>= rename second) = rename (first.andThen second) descriptor ∧
    (first.Inhabited →
      (isField descriptor → ∃ result, rename first descriptor = .ok result ∧ isField result) ∧
      (isMethod descriptor → ∃ result, rename first descriptor = .ok result ∧ isMethod result ∧
        parameterSlots result = parameterSlots descriptor)) := by
  refine ⟨fun nothing same => ⟨?_, fun result => rename_unchanged same⟩, rename_rename plain,
    fun inhabited => ⟨rename_isField plain inhabited, rename_isMethod plain inhabited⟩⟩
  rw [rename_ok, ← rename_ok nothing]
  constructor
  · rintro ⟨result, renamed⟩
    rwa [rename_unchanged same renamed] at renamed
  · exact fun renamed => ⟨descriptor, renamed⟩

/-- A class moves to a name that a reader which lost its place would take for something else. -/
def moved : Renaming := fun name => if name = "a/C" then some "L(L" else none

def movedOn : Renaming := fun name => if name = "L(L" then some "b/D" else none

theorem rename_functorial_moved :
    moved.Plain ∧ moved.Inhabited ∧
      rename moved "(ILa/C;[La/C;J)V" = .ok "(ILL(L;[LL(L;J)V" ∧
      (rename moved "(ILa/C;[La/C;J)V" >>= rename movedOn) =
        rename (moved.andThen movedOn) "(ILa/C;[La/C;J)V" ∧
      ∃ result, rename moved "(ILa/C;[La/C;J)V" = .ok result ∧ isMethod result ∧
        parameterSlots result = parameterSlots "(ILa/C;[La/C;J)V" := by
  have named : ∀ name renamed, moved name = some renamed → renamed = "L(L" := by
    intro name renamed given
    rw [moved] at given
    split at given
    · exact (Option.some.inj given).symm
    · cases given
  have plain : moved.Plain := fun name renamed given => by rw [named name renamed given]; decide
  have inhabited : moved.Inhabited := fun name renamed given => by rw [named name renamed given]; decide
  obtain ⟨-, both, kept⟩ := rename_functorial "(ILa/C;[La/C;J)V" moved movedOn plain
  exact ⟨plain, inhabited, by decide, both, (kept inhabited).2 (by decide)⟩

end Descriptor

end JarRemap
