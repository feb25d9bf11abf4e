import JarRemap.Path
import Mathlib.Data.List.Basic

/-!
# The steps of a path

How the steps of a path change with its text: what is added behind the text changes the last step
alone, and a path that was put together from names has these names as its steps.
-/

namespace JarRemap

namespace Text

theorem splitOnto_eq (separates : Char → Bool) (piece : List Char) (pieces : List (List Char))
    (chars : List Char) :
    splitOnto separates piece pieces chars =
      pieces.reverse ++ chars.splitOnPPrepend separates piece := by
  induction chars generalizing piece pieces with
  | nil => simp [splitOnto]
  | cons c chars ih =>
    rw [splitOnto, List.splitOnPPrepend_cons_eq_if]
    split
    · rw [ih, List.reverse_cons, List.append_assoc]
      rfl
    · exact ih _ _

theorem splitWhen_eq (separates : Char → Bool) (chars : List Char) :
    splitWhen separates chars = chars.splitOnP separates :=
  splitOnto_eq separates [] [] chars

theorem of_mem_splitOnP {separates : Char → Bool} {chars piece : List Char}
    (member : piece ∈ chars.splitOnP separates) : ∀ c ∈ piece, separates c = false ∧ c ∈ chars := by
  induction chars generalizing piece with
  | nil =>
    rw [List.splitOnP_nil, List.mem_singleton] at member
    simp [member]
  | cons first chars ih =>
    have later {piece : List Char} (member : piece ∈ chars.splitOnP separates) :
        ∀ c ∈ piece, separates c = false ∧ c ∈ first :: chars := fun c found =>
      ⟨(ih member c found).1, List.mem_cons_of_mem _ (ih member c found).2⟩
    rw [List.splitOnP_cons_eq_if_modifyHead] at member
    split at member
    · obtain rfl | member := List.mem_cons.mp member
      · simp
      · exact later member
    next solid =>
      -- The first character joins the first piece.
      obtain ⟨head, others, pieces⟩ := List.exists_cons_of_ne_nil (List.splitOnP_ne_nil separates chars)
      rw [pieces, List.modifyHead_cons] at member
      obtain rfl | member := List.mem_cons.mp member
      · rw [List.forall_mem_cons]
        exact ⟨⟨by simpa using solid, List.mem_cons_self⟩,
          later (pieces ▸ List.mem_cons_self)⟩
      · exact later (pieces ▸ List.mem_cons_of_mem _ member)

end Text

namespace Path

/-- The steps that a piece of a path's text spells. -/
def stepsOf (chars : List Char) : List String :=
  ((chars.splitOnP (· == '/')).filter (!·.isEmpty)).map String.ofList

theorem steps_eq (path : Path) : path.steps = stepsOf path.text.toList := by
  rw [steps, pieces, Text.splitWhen_eq, stepsOf]

theorem stepsOf_append (front back : List Char) :
    stepsOf (front ++ '/' :: back) = stepsOf front ++ stepsOf back := by
  rw [stepsOf, List.splitOnP_append_cons _ _ rfl, List.filter_append, List.map_append]
  rfl

theorem stepsOf_name {chars : List Char} (solid : '/' ∉ chars) (named : chars ≠ []) :
    stepsOf chars = [String.ofList chars] := by
  have single : chars.splitOnP (· == '/') = [chars] :=
    List.splitOnP_eq_singleton fun c member => beq_false_of_ne fun same => solid (same ▸ member)
  rw [stepsOf, single]
  simp [named]

/-- What a path is made of: steps are not empty, and neither they nor anything else in the text is
made up. -/
theorem of_mem_steps {path : Path} {step : String} (member : step ∈ path.steps) :
    step ≠ "" ∧ '/' ∉ step.toList ∧ ∀ c ∈ step.toList, c ∈ path.text.toList := by
  rw [steps_eq] at member
  obtain ⟨piece, found, rfl⟩ := List.mem_map.mp member
  obtain ⟨found, solid⟩ := List.mem_filter.mp found
  have each := Text.of_mem_splitOnP found
  rw [String.toList_ofList]
  refine ⟨?_, fun slash => by simpa using (each _ slash).1, fun c here => (each c here).2⟩
  rintro empty
  obtain rfl : piece = [] := by simpa using congrArg String.toList empty
  simp at solid

/-- Some text without slashes stands behind the last slash, if there is one. -/
theorem exists_last_step (chars : List Char) :
    ∃ (front : List String) (name : List Char), '/' ∉ name ∧
      (chars = name ∧ front = [] ∨ ∃ before, chars = before ++ '/' :: name ∧ front = stepsOf before) := by
  by_cases slash : '/' ∈ chars
  · obtain ⟨back, front, same, solid⟩ := List.eq_append_cons_of_mem (List.mem_reverse.mpr slash)
    refine ⟨_, back.reverse, by simpa using solid, .inr ⟨front.reverse, ?_, rfl⟩⟩
    simpa using congrArg List.reverse same
  · exact ⟨[], chars, slash, .inl ⟨rfl, rfl⟩⟩

/-- What is added behind a path goes on with its last step, or is a step of its own. All other steps
stay. -/
theorem exists_steps_extend (path : Path) :
    ∃ (front : List String) (name : String), front <+: path.steps ∧
      (path.endsInName → path.namesDirectory = false →
        name ≠ "." ∧ name ≠ ".." ∧ path.steps = front ++ [name]) ∧
      ∀ ending : String, ending ≠ "" → '/' ∉ ending.toList →
        (path.extend ending).steps = front ++ [name ++ ending] ∧
          (path.extend ending).isAbsolute = path.isAbsolute := by
  obtain ⟨front, name, solid, whole⟩ := exists_last_step path.text.toList
  -- The text behind the last slash is the last step, or it is empty and no step at all.
  have own : path.steps = front ++ stepsOf name := by
    rw [steps_eq]
    obtain ⟨same, rfl⟩ | ⟨before, same, rfl⟩ := whole
    · rw [same, List.nil_append]
    · rw [same, stepsOf_append]
  refine ⟨front, String.ofList name, own ▸ List.prefix_append front _, fun named file => ?_,
    fun ending given solidEnding => ⟨?_, ?_⟩⟩
  · have given : name ≠ [] := by
      rintro rfl
      obtain ⟨empty, -⟩ | ⟨before, ends, -⟩ := whole
      · simp [endsInName, steps_eq, empty, stepsOf] at named
      · simp [namesDirectory, ends] at file
    rw [stepsOf_name solid given] at own
    have proper : String.ofList name ≠ "." ∧ String.ofList name ≠ ".." := by
      simpa [endsInName, own] using named
    exact ⟨proper.1, proper.2, own⟩
  · have last : stepsOf (name ++ ending.toList) = [String.ofList name ++ ending] := by
      rw [stepsOf_name (by simp [solid, solidEnding]) (by simp [given]), String.ofList_append,
        String.ofList_toList]
    rw [steps_eq, extend, String.toList_append]
    obtain ⟨same, rfl⟩ | ⟨before, same, rfl⟩ := whole
    · rw [same, last, List.nil_append]
    · rw [same, List.append_assoc, List.cons_append, stepsOf_append, last]
  · rw [isAbsolute, isAbsolute, extend, String.toList_append, List.head?_append]
    cases text : path.text.toList with
    | cons c rest => rfl
    | nil =>
      have other : ending.toList.head? ≠ some '/' := fun begins =>
        solidEnding (List.mem_of_mem_head? begins)
      simpa using other

/-- A step with a long ending is a name. -/
theorem append_ne_dots {ending : String} (longer : 2 < ending.length) (name : String) :
    name ++ ending ≠ "." ∧ name ++ ending ≠ ".." := by
  have lengths : ".".length = 1 ∧ "..".length = 2 := by decide
  constructor
  all_goals
    intro same
    have length := congrArg String.length same
    rw [String.length_append] at length
    omega

/-! ## Paths that are put together -/

/-- The steps that pieces of a path stand for. -/
def stepsOfPieces (pieces : List (List Char)) : List String :=
  (pieces.filter (!·.isEmpty)).map String.ofList

theorem toList_joinPieces {first second : List Char} {rest : List (List Char)} :
    (joinPieces (first :: second :: rest)).toList =
      List.intercalate ['/'] (first :: second :: rest) := by
  simp [joinPieces, String.toList_intercalate, Function.comp_def]

theorem steps_joinPieces {pieces : List (List Char)} (solid : ∀ piece ∈ pieces, '/' ∉ piece) :
    (⟨joinPieces pieces⟩ : Path).steps = stepsOfPieces pieces := by
  rw [steps_eq]
  match pieces with
  | [] => rfl
  | [[]] => rfl
  | [c :: name] =>
    have named := stepsOf_name (solid _ List.mem_cons_self) (List.cons_ne_nil c name)
    simpa [joinPieces, stepsOfPieces] using named
  | first :: second :: rest =>
    rw [toList_joinPieces, stepsOf, ← List.splitOn_eq_splitOnP,
      List.splitOn_intercalate '/' solid (List.cons_ne_nil _ _), stepsOfPieces]

/-- The path from the root that is put together from names has these names as its steps. -/
theorem steps_root {names : List String} (given : names ≠ [])
    (proper : ∀ name ∈ names, name ≠ "" ∧ '/' ∉ name.toList) :
    (⟨"/" ++ "/".intercalate names⟩ : Path).steps = names := by
  -- The slash in front is that behind an empty first piece.
  have text : "/" ++ "/".intercalate names = joinPieces ([] :: names.map String.toList) := by
    obtain ⟨name, others, rfl⟩ := List.exists_cons_of_ne_nil given
    rw [← String.toList_inj, List.map_cons, toList_joinPieces, String.toList_append,
      String.toList_intercalate, List.intercalate_cons_cons]
    rfl
  have solid : ∀ piece ∈ [] :: names.map String.toList, '/' ∉ piece := by
    simpa using fun name member => (proper name member).2
  have kept : (names.map String.toList).filter (!·.isEmpty) = names.map String.toList := by
    refine List.filter_eq_self.mpr ?_
    simpa using fun name member => (proper name member).1
  rw [text, steps_joinPieces solid, stepsOfPieces, List.filter_cons_of_neg (by simp), kept, List.map_map]
  simp [Function.comp_def]

theorem isAbsolute_joinPieces {first : List Char} (rest : List (List Char)) (solid : '/' ∉ first) :
    (⟨joinPieces (first :: rest)⟩ : Path).isAbsolute = first.isEmpty := by
  match first, rest with
  | [], [] => rfl
  | [], second :: rest => simp [isAbsolute, toList_joinPieces, List.intercalate]
  | c :: name, rest =>
    have other : c ≠ '/' := fun same => solid (same ▸ List.mem_cons_self)
    cases rest with
    | nil => simp [isAbsolute, joinPieces, other]
    | cons second rest => simp [isAbsolute, toList_joinPieces, List.intercalate, other]

/-- A path with a slash is put together from its pieces. -/
theorem text_eq_joinPieces {path : Path} {first second : List Char} {rest : List (List Char)}
    (pieces : path.pieces = first :: second :: rest) : path.text = joinPieces path.pieces := by
  rw [← String.toList_inj, pieces, toList_joinPieces, ← pieces, Path.pieces, Text.splitWhen_eq,
    ← List.splitOn_eq_splitOnP, List.intercalate_splitOn]

theorem stepsOfPieces_append (front back : List (List Char)) :
    stepsOfPieces (front ++ back) = stepsOfPieces front ++ stepsOfPieces back := by
  rw [stepsOfPieces, List.filter_append, List.map_append]
  rfl

/-- A path begins with a slash if its first piece is empty and others follow. -/
theorem isAbsolute_of_pieces {path : Path} {first second : List Char} {rest : List (List Char)}
    (pieces : path.pieces = first :: second :: rest) (solid : '/' ∉ first) :
    path.isAbsolute = first.isEmpty := by
  rw [← isAbsolute_joinPieces (second :: rest) solid, ← pieces, ← text_eq_joinPieces pieces]

theorem trimPieces_prefix (pieces : List (List Char)) : trimPieces pieces <+: pieces := by
  cases pieces with
  | nil => exact List.prefix_rfl
  | cons first rest =>
    refine List.cons_prefix_cons.mpr ⟨rfl, ?_⟩
    rw [← List.reverse_suffix, List.reverse_reverse]
    exact List.dropWhile_suffix _

/-- What is left of trimmed pieces ends in one that counts, unless it is the first. -/
theorem trimPieces_last {pieces : List (List Char)} {first : List Char} {rest : List (List Char)}
    {last : List Char} (trimmed : trimPieces pieces = first :: (rest ++ [last])) :
    last ≠ [] ∧ last ≠ ['.'] := by
  cases pieces with
  | nil => cases trimmed
  | cons head tail =>
    have behind := congrArg List.reverse (List.cons.inj trimmed).2
    rw [List.reverse_reverse, List.reverse_append, List.reverse_singleton, List.singleton_append]
      at behind
    have stopped := List.head?_dropWhile_not (fun piece => piece.isEmpty || piece == ['.']) tail.reverse
    rw [behind] at stopped
    simpa using stopped

/-- The parent of a path is a front part of it, and what is left out is not only dots, unless the
parent has no text. -/
theorem steps_of_parent? {path parent : Path} (above : path.parent? = some parent)
    (given : parent.text ≠ "") :
    parent.isAbsolute = path.isAbsolute ∧
      ∃ rest, path.steps = parent.steps ++ rest ∧ ∃ step ∈ rest, step ≠ "." := by
  have solid : ∀ piece ∈ path.pieces, '/' ∉ piece := by
    rw [pieces, Text.splitWhen_eq]
    intro piece member slash
    simpa using (Text.of_mem_splitOnP member _ slash).1
  obtain ⟨trimmed, trims⟩ : ∃ trimmed, trimPieces path.pieces = trimmed := ⟨_, rfl⟩
  obtain rfl : parent = ⟨joinPieces (trimPieces trimmed.dropLast)⟩ := by
    rw [parent?, trims] at above
    split at above
    · cases above
    · cases above
    · exact (Option.some.inj above).symm
  obtain ⟨dropped, whole⟩ : trimmed <+: path.pieces := trims ▸ trimPieces_prefix _
  obtain rfl | ⟨front, last, rfl⟩ := List.eq_nil_or_concat trimmed
  · exact absurd rfl given
  rw [List.concat_eq_append] at trims whole given ⊢
  rw [List.dropLast_concat] at given ⊢
  obtain _ | ⟨first, front⟩ := front
  · exact absurd rfl given
  -- At least two pieces are left, so the last of them is a step that counts.
  have ends : trimPieces path.pieces = first :: (front ++ [last]) := trims
  obtain ⟨counts, notDot⟩ := trimPieces_last ends
  obtain ⟨between, parts⟩ := trimPieces_prefix (first :: front)
  rw [← parts, List.append_assoc, List.append_assoc] at whole
  have inside : ∀ piece ∈ trimPieces (first :: front), '/' ∉ piece := fun piece member =>
    solid piece (whole ▸ List.mem_append_left _ member)
  have solidFirst : '/' ∉ first := inside first List.mem_cons_self
  refine ⟨?_, stepsOfPieces (between ++ ([last] ++ dropped)), ?_, String.ofList last, ?_, ?_⟩
  · obtain ⟨second, rest, pieces⟩ : ∃ second rest, path.pieces = first :: second :: rest := by
      rw [← whole, ← List.append_assoc, parts]
      cases front <;> exact ⟨_, _, rfl⟩
    rw [isAbsolute_of_pieces pieces solidFirst]
    exact isAbsolute_joinPieces _ solidFirst
  · rw [steps_joinPieces inside, ← stepsOfPieces_append, whole]
    rfl
  · refine List.mem_map_of_mem (List.mem_filter.mpr ⟨by simp, ?_⟩)
    simpa using counts
  · exact fun same => notDot (String.ofList_injective same)

end Path

end JarRemap
