import JarRemap.Descriptor.Rename
import JarRemap.Proofs.Text.Pieces

/-!
# Renaming descriptors there and back

A descriptor is the text of its pieces, and it has no others. So a renamed descriptor has the renamed
pieces, as long as no new name holds a semicolon, and renaming these back gives the descriptor again.
-/

namespace JarRemap.Descriptor

/-- A piece that is found again in its text. -/
def Piece.Proper : Piece → Prop
  | other c => c ≠ 'L'
  | name chars => ';' ∉ chars

instance : DecidablePred Piece.Proper
  | .other c => inferInstanceAs (Decidable (c ≠ 'L'))
  | .name chars => inferInstanceAs (Decidable (';' ∉ chars))

private theorem spelled_cons_iff (c : Char) (rest : List Char) (pieces : List Piece) :
    pieces.flatMap Piece.text = c :: rest ↔
      (∃ more, pieces = .other c :: more ∧ more.flatMap Piece.text = rest) ∨
        c = 'L' ∧ ∃ chars more, pieces = .name chars :: more ∧
          rest = chars ++ ';' :: more.flatMap Piece.text := by
  -- The first piece tells the two cases apart.
  rcases pieces with _ | ⟨letter | chars, more⟩
  · simp
  · simp only [List.flatMap_cons, Piece.text, List.cons_append, List.nil_append, List.cons.injEq,
      reduceCtorEq, false_and, exists_false, and_false, or_false, Piece.other.injEq]
    constructor
    · rintro ⟨rfl, rfl⟩
      exact ⟨more, ⟨rfl, rfl⟩, rfl⟩
    · rintro ⟨_, ⟨rfl, rfl⟩, rfl⟩
      exact ⟨rfl, rfl⟩
  · simp only [List.flatMap_cons, Piece.text, List.cons_append, List.append_assoc, List.nil_append,
      List.cons.injEq, reduceCtorEq, false_and, exists_false, false_or, Piece.name.injEq]
    constructor
    · rintro ⟨rfl, rfl⟩
      exact ⟨rfl, chars, more, ⟨rfl, rfl⟩, rfl⟩
    · rintro ⟨rfl, _, _, ⟨rfl, rfl⟩, rfl⟩
      exact ⟨rfl, rfl⟩

/-- The rest of a text goes on behind the pieces found so far, latest first, with proper pieces. Inside
a name, it has the end of that name in front of them. -/
private def Continues (found all : List Piece) (source : List Char) : Option (List Char) → Prop
  | none => ∃ more, all = found.reverse ++ more ∧ more.flatMap Piece.text = source ∧
      ∀ piece ∈ more, piece.Proper
  | some name => ∃ chars more, all = found.reverse ++ .name (name.reverse ++ chars) :: more ∧
      source = chars ++ ';' :: more.flatMap Piece.text ∧ ';' ∉ chars ∧
      ∀ piece ∈ more, piece.Proper

section

variable {found all : List Piece} {name : List Char} {c : Char} {rest : List Char}

private theorem continues_ended : Continues found all [] none ↔ found.reverse = all := by
  constructor
  · rintro ⟨more, rfl, nothing, -⟩
    cases more with
    | nil => simp
    | cons piece more => cases piece <;> simp [Piece.text] at nothing
  · rintro rfl
    exact ⟨[], by simp⟩

private theorem continues_name :
    Continues found all ('L' :: rest) none ↔ Continues found all rest (some []) := by
  constructor
  · rintro ⟨pieces, rfl, spelled, proper⟩
    rcases (spelled_cons_iff _ _ _).mp spelled with ⟨more, rfl, -⟩ | ⟨-, chars, more, rfl, rfl⟩
    · exact absurd rfl (proper _ List.mem_cons_self)
    · obtain ⟨inside, proper⟩ := List.forall_mem_cons.mp proper
      exact ⟨chars, more, rfl, rfl, inside, proper⟩
  · rintro ⟨chars, more, rfl, rfl, inside, proper⟩
    refine ⟨.name chars :: more, rfl, by simp [Piece.text], ?_⟩
    exact List.forall_mem_cons.mpr ⟨inside, proper⟩

private theorem continues_letter (plain : c ≠ 'L') :
    Continues found all (c :: rest) none ↔ Continues (.other c :: found) all rest none := by
  constructor
  · rintro ⟨pieces, rfl, spelled, proper⟩
    rcases (spelled_cons_iff _ _ _).mp spelled with ⟨more, rfl, rfl⟩ | ⟨letter, -⟩
    · exact ⟨more, by simp, rfl, (List.forall_mem_cons.mp proper).2⟩
    · exact absurd letter plain
  · rintro ⟨more, rfl, rfl, proper⟩
    refine ⟨.other c :: more, by simp, by simp [Piece.text], ?_⟩
    exact List.forall_mem_cons.mpr ⟨plain, proper⟩

private theorem continues_nameEnd :
    Continues found all (';' :: rest) (some name) ↔
      Continues (.name name.reverse :: found) all rest none := by
  constructor
  · rintro ⟨chars, more, rfl, spelled, inside, proper⟩
    cases chars with
    | nil => exact ⟨more, by simp, (List.cons.inj spelled).2.symm, proper⟩
    | cons first chars =>
      obtain ⟨rfl, -⟩ := List.cons.inj spelled
      exact absurd List.mem_cons_self inside
  · rintro ⟨more, rfl, rfl, proper⟩
    exact ⟨[], more, by simp, rfl, by simp, proper⟩

private theorem continues_nameLetter (inner : c ≠ ';') :
    Continues found all (c :: rest) (some name) ↔ Continues found all rest (some (c :: name)) := by
  constructor
  · rintro ⟨chars, more, rfl, spelled, inside, proper⟩
    cases chars with
    | nil => exact absurd (List.cons.inj spelled).1 inner
    | cons first chars =>
      obtain ⟨rfl, rfl⟩ := List.cons.inj spelled
      exact ⟨chars, more, by simp, rfl, fun member => inside (List.mem_cons_of_mem _ member), proper⟩
  · rintro ⟨chars, more, rfl, rfl, inside, proper⟩
    refine ⟨c :: chars, more, by simp, rfl, ?_, proper⟩
    simp only [List.mem_cons, not_or]
    exact ⟨fun same => inner same.symm, inside⟩

end

private theorem piecesOnto_iff (source : List Char) (found all : List Piece)
    (state : Option (List Char)) :
    piecesOnto found state source = some all ↔ Continues found all source state := by
  -- One induction for both states of the reader, as each letter may lead from one to the other.
  induction source generalizing found state with
  | nil =>
    cases state with
    | none => rw [piecesOnto, Option.some.injEq, continues_ended]
    | some name => simp [piecesOnto, Continues]
  | cons c rest ih =>
    cases state with
    | none =>
      rw [piecesOnto]
      split
      next letter => rw [ih, letter, continues_name]
      next plain => rw [ih, continues_letter plain]
    | some name =>
      rw [piecesOnto]
      split
      next ends => rw [ih, ends, continues_nameEnd]
      next inner => rw [ih, continues_nameLetter inner]

/-- A text has exactly the proper pieces that it is put together from. -/
theorem pieces?_eq_some_iff (source : List Char) (pieces : List Piece) :
    pieces? source = some pieces ↔
      pieces.flatMap Piece.text = source ∧ ∀ piece ∈ pieces, piece.Proper := by
  rw [pieces?, piecesOnto_iff]
  constructor
  · rintro ⟨more, rfl, spelled, proper⟩
    exact ⟨spelled, proper⟩
  · rintro ⟨spelled, proper⟩
    exact ⟨pieces, rfl, spelled, proper⟩

/-- The texts between an `L` and the next semicolon. -/
def classNames (descriptor : String) : List String :=
  ((pieces? descriptor.toList).getD []).filterMap fun
    | .name chars => some (String.ofList chars)
    | .other _ => none

theorem rename_ok_iff (names : Renaming) (descriptor result : String) :
    rename names descriptor = .ok result ↔ ∃ pieces, pieces? descriptor.toList = some pieces ∧
      String.ofList ((pieces.map (Piece.rename names)).flatMap Piece.text) = result := by
  rw [rename]
  cases pieces? descriptor.toList <;> simp

theorem mem_classNames {descriptor : String} {pieces : List Piece} {chars : List Char}
    (found : pieces? descriptor.toList = some pieces) (member : Piece.name chars ∈ pieces) :
    String.ofList chars ∈ classNames descriptor := by
  rw [classNames, found]
  exact List.mem_filterMap.mpr ⟨_, member, rfl⟩

/-- A descriptor has the renamed pieces after it was renamed, if no new name holds a semicolon. -/
theorem pieces?_renamed {names : Renaming} {descriptor : String} {pieces : List Piece}
    (found : pieces? descriptor.toList = some pieces)
    (plain : ∀ name ∈ classNames descriptor, ';' ∉ (names.apply name).toList) :
    pieces? ((pieces.map (Piece.rename names)).flatMap Piece.text) =
      some (pieces.map (Piece.rename names)) := by
  obtain ⟨-, proper⟩ := (pieces?_eq_some_iff _ _).mp found
  refine (pieces?_eq_some_iff _ _).mpr ⟨rfl, fun piece member => ?_⟩
  obtain ⟨old, member', rfl⟩ := List.mem_map.mp member
  cases old with
  | other c => exact proper _ member'
  | name chars => exact plain _ (mem_classNames found member')

/-- A descriptor is restored by renaming its class names back. -/
theorem rename_back {names back : Renaming} {descriptor result : String}
    (renamed : rename names descriptor = .ok result)
    (restores : ∀ name ∈ classNames descriptor, back.apply (names.apply name) = name)
    (plain : ∀ name ∈ classNames descriptor, ';' ∉ (names.apply name).toList) :
    rename back result = .ok descriptor := by
  obtain ⟨pieces, found, rfl⟩ := (rename_ok_iff _ _ _).mp renamed
  obtain ⟨spelled, -⟩ := (pieces?_eq_some_iff _ _).mp found
  refine (rename_ok_iff _ _ _).mpr
    ⟨pieces.map (Piece.rename names), by simpa using pieces?_renamed found plain, ?_⟩
  have same : (pieces.map (Piece.rename names)).map (Piece.rename back) = pieces := by
    rw [List.map_map]
    refine (List.map_congr_left fun piece member => ?_).trans (List.map_id pieces)
    cases piece with
    | other c => rfl
    | name chars => simp [Piece.rename, restores _ (mem_classNames found member)]
  rw [same, spelled]
  simp

/-- A text that begins with a whole descriptor begins with the pieces of it. -/
private theorem spelled_append {front whole : List Piece} {rest : List Char}
    (proper : ∀ piece ∈ front, piece.Proper) (proper' : ∀ piece ∈ whole, piece.Proper)
    (spelled : whole.flatMap Piece.text = front.flatMap Piece.text ++ rest) :
    ∃ back, whole = front ++ back ∧ back.flatMap Piece.text = rest := by
  -- A letter that opens a name is never a piece of its own, so the first pieces are of one kind.
  induction front generalizing whole with
  | nil => exact ⟨whole, rfl, spelled⟩
  | cons piece front ih =>
    obtain ⟨first, others⟩ := List.forall_mem_cons.mp proper
    rw [List.flatMap_cons, List.append_assoc] at spelled
    cases piece with
    | other c =>
      rcases (spelled_cons_iff _ _ _).mp spelled with ⟨more, rfl, behind⟩ | ⟨letter, -⟩
      · obtain ⟨back, rfl, ends⟩ := ih others (List.forall_mem_cons.mp proper').2 behind
        exact ⟨back, rfl, ends⟩
      · exact absurd letter first
    | name chars =>
      rcases (spelled_cons_iff _ _ _).mp spelled with ⟨more, rfl, -⟩ | ⟨-, chars', more, rfl, behind⟩
      · exact absurd rfl (List.forall_mem_cons.mp proper').1
      · obtain ⟨inside, others'⟩ := List.forall_mem_cons.mp proper'
        obtain ⟨rfl, after⟩ := Text.first_mark_inj first inside (by simpa using behind)
        obtain ⟨back, rfl, ends⟩ := ih others others' after.symm
        exact ⟨back, rfl, ends⟩

/-- What stands behind a descriptor and ends no class name stays there. -/
theorem rename_append {names : Renaming} {front back result whole : String} (plain : ';' ∉ back.toList)
    (alone : rename names front = .ok result) (renamed : rename names (front ++ back) = .ok whole) :
    whole = result ++ back := by
  obtain ⟨pieces, found, rfl⟩ := (rename_ok_iff _ _ _).mp alone
  obtain ⟨all, found', rfl⟩ := (rename_ok_iff _ _ _).mp renamed
  obtain ⟨spelled, proper⟩ := (pieces?_eq_some_iff _ _).mp found
  obtain ⟨spelled', proper'⟩ := (pieces?_eq_some_iff _ _).mp found'
  rw [String.toList_append, ← spelled] at spelled'
  obtain ⟨more, rfl, behind⟩ := spelled_append proper proper' spelled'
  -- A class name would bring a semicolon with it.
  have kept : more.map (Piece.rename names) = more := by
    refine (List.map_congr_left fun piece member => ?_).trans (List.map_id more)
    cases piece with
    | other c => rfl
    | name chars =>
      exact absurd (behind ▸ List.mem_flatMap.mpr ⟨_, member, by simp [Piece.text]⟩) plain
  rw [List.map_append, List.flatMap_append, kept, behind, String.ofList_append, String.ofList_toList]

/-- The name of an array class, which is a descriptor. -/
def IsArray (name : String) : Prop := name.toList.head? = some '['

instance : DecidablePred IsArray := fun name => decEq name.toList.head? (some '[')

theorem rename_array {names : Renaming} {name result : String} (array : IsArray name)
    (renamed : rename names name = .ok result) : IsArray result := by
  obtain ⟨pieces, found, rfl⟩ := (rename_ok_iff _ _ _).mp renamed
  obtain ⟨spelled, -⟩ := (pieces?_eq_some_iff _ _).mp found
  obtain ⟨rest, source⟩ := List.head?_eq_some_iff.mp array
  rw [source] at spelled
  rcases (spelled_cons_iff _ _ _).mp spelled with ⟨more, rfl, -⟩ | ⟨letter, -⟩
  · simp [IsArray, Piece.rename, Piece.text]
  · exact absurd letter (by decide)

end JarRemap.Descriptor
