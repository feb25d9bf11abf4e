import JarRemap.FileTree.Action
import JarRemap.Proofs.FileTree

/-!
# Reading under the one path

Every file that can be read can be read under the one path from the root that has no dots in it, as
long as that path is not too long.
-/

namespace JarRemap.FileTree

variable {tree : FileTree}

theorem walk_names {place found : Place} {names : List String}
    (walked : tree.walk place names = .ok found) (proper : ∀ name ∈ place, IsName name)
    (spelled : ∀ name ∈ names, name ≠ "" ∧ '/' ∉ name.toList ∧ '\x00' ∉ name.toList) :
    ∀ name ∈ found, IsName name := by
  induction names generalizing place with
  | nil =>
    obtain rfl := Except.ok.inj walked
    exact proper
  | cons name names ih =>
    rw [List.forall_mem_cons] at spelled
    obtain ⟨-, short, walked⟩ := (walk_cons_ok_iff _ _ _ _ _).mp walked
    refine ih walked ?_ spelled.2
    -- Dots add no name to the place, and any other step is a name.
    rw [stepFrom]
    split
    · exact proper
    next notDot =>
      split
      · exact fun name member => proper name (List.mem_of_mem_tail member)
      next notDots =>
        exact List.forall_mem_cons.mpr
          ⟨⟨spelled.1.1, notDot, notDots, spelled.1.2.1, spelled.1.2.2, short⟩, proper⟩

/-- The names that lead to where a path leads are names. -/
theorem Rooted.names_placeOf (rooted : tree.Rooted) {path : Path} {place : Place}
    (found : tree.target path = .ok place) : ∀ name ∈ place, IsName name := by
  obtain ⟨start, departed, walked⟩ := (bind_ok_iff _ _ _).mp found
  obtain ⟨noZero, rfl⟩ := outset_ok (departure_ok departed).1
  refine walk_names walked ?_ fun name member => ?_
  · split
    · simp
    · exact rooted.names
  · obtain ⟨given, noSlash, inside⟩ := Path.of_mem_steps member
    exact ⟨given, noSlash, fun zero => noZero (inside _ zero)⟩

theorem Rooted.walk_names (rooted : tree.Rooted) {place : Place} {names : List String}
    (proper : ∀ name ∈ names, IsName name) {node : Node}
    (there : tree.find? (names.reverse ++ place) = some node) :
    tree.walk place names = .ok (names.reverse ++ place) := by
  induction names generalizing place with
  | nil => rfl
  | cons name names ih =>
    rw [List.forall_mem_cons] at proper
    rw [List.reverse_cons, List.append_assoc, List.singleton_append] at there ⊢
    refine (walk_cons_ok_iff _ _ _ _ _).mpr ⟨?_, proper.1.short, ?_⟩
    · exact rooted.beneath there
    · rw [stepFrom, if_neg proper.1.notDot, if_neg proper.1.notDots]
      exact ih proper.2 there

/-- Between names that are put together with slashes there is nothing but the slashes. -/
theorem intercalate_names {names : List String} (proper : ∀ name ∈ names, IsName name)
    (given : names ≠ []) :
    (∃ c, (List.intercalate ['/'] (names.map String.toList)).getLast? = some c ∧ c ≠ '/') ∧
      '\x00' ∉ List.intercalate ['/'] (names.map String.toList) := by
  induction names with
  | nil => exact absurd rfl given
  | cons name names ih =>
    rw [List.forall_mem_cons] at proper
    obtain ⟨notEmpty, -, -, noSlash, noZero, -⟩ := proper.1
    -- The last character is that of the last name, which is not empty.
    cases names with
    | nil =>
      rw [List.map_singleton, List.intercalate_singleton]
      have filled : name.toList ≠ [] := by simpa using notEmpty
      exact ⟨⟨_, List.getLast?_eq_some_getLast filled, fun slash =>
        noSlash (slash ▸ List.getLast_mem filled)⟩, noZero⟩
    | cons next names =>
      obtain ⟨⟨c, last, solid⟩, zeros⟩ := ih proper.2 (List.cons_ne_nil _ _)
      rw [List.map_cons, List.map_cons, List.intercalate_cons_cons, ← List.map_cons]
      refine ⟨⟨c, by rw [List.getLast?_append, last, Option.some_or], solid⟩, ?_⟩
      rw [List.mem_append, List.mem_append, not_or, not_or]
      exact ⟨⟨noZero, by decide⟩, zeros⟩

theorem pathTo_spec {place : Place} (proper : ∀ name ∈ place, IsName name) (given : place ≠ []) :
    (pathTo place).steps = place.reverse ∧ (pathTo place).isAbsolute ∧
      (pathTo place).namesDirectory = false ∧ '\x00' ∉ (pathTo place).text.toList := by
  have reversed : ∀ name ∈ place.reverse, IsName name := fun name member =>
    proper name (List.mem_reverse.mp member)
  have filled : place.reverse ≠ [] := by simpa using given
  have text : (pathTo place).text.toList =
      '/' :: List.intercalate ['/'] (place.reverse.map String.toList) := by
    rw [pathTo, String.toList_append, String.toList_intercalate]
    rfl
  obtain ⟨⟨c, last, solid⟩, zeros⟩ := intercalate_names reversed filled
  generalize List.intercalate ['/'] (place.reverse.map String.toList) = inside at text last zeros
  refine ⟨Path.steps_root filled fun name member =>
    ⟨(reversed name member).given, (reversed name member).noSlash⟩, ?_, ?_, ?_⟩
  · simp [Path.isAbsolute, text]
  · simp [Path.namesDirectory, text, List.getLast?_cons, last, solid]
  · simp [text, zeros]

/-- What is under a path is also under the one path to it. -/
theorem Rooted.read_pathTo (rooted : tree.Rooted) {path : Path} {content : FileContent}
    (read : tree.read path = .ok content)
    (short : (pathTo (placeOf tree.here path)).text.utf8ByteSize ≤ maxPath) :
    tree.read (pathTo (placeOf tree.here path)) = .ok content := by
  obtain ⟨place, located⟩ := (read_ok_iff _ _ _).mp read
  obtain ⟨reached, rfl, there, -⟩ := locate_ok located
  have proper := rooted.names_placeOf reached
  have given : placeOf tree.here path ≠ [] := by
    intro root
    simp [root] at there
  generalize placeOf tree.here path = place at *
  obtain ⟨steps, absolute, file, noZero⟩ := pathTo_spec proper given
  have filled : (pathTo place).text.isEmpty = false := by
    rw [pathTo, String.isEmpty_eq_false_iff]
    simp
  -- From the root, the names of the place lead back to it through the directories above.
  have walked : tree.walk [] place.reverse = .ok place := by
    have reversed : ∀ name ∈ place.reverse, IsName name := fun name member =>
      proper name (List.mem_reverse.mp member)
    have back : tree.find? (place.reverse.reverse ++ []) =
        some (.file content) := by simpa using there
    simpa using rooted.walk_names reversed back
  refine (read_ok_iff _ _ _).mpr ⟨place, ?_⟩
  have zero : (pathTo place).text.toList.contains '\x00' = false := by simpa using noZero
  rw [locate, FileTree.target, departure, outset, zero, filled, absolute, steps]
  simp [bind, Except.bind, pure, Except.pure, Nat.not_lt_of_le short, walked, arrive, there, file]

theorem canonical_of_read {path : Path} {content : FileContent}
    (read : tree.read path = .ok content) :
    tree.canonical path =
      if (pathTo (placeOf tree.here path)).text.utf8ByteSize > maxPath then .error .nameTooLong
      else .ok (pathTo (placeOf tree.here path)) := by
  obtain ⟨place, located⟩ := (read_ok_iff _ _ _).mp read
  obtain ⟨reached, rfl, -, arrived⟩ := locate_ok located
  rw [canonical, (target_ok reached).2]
  simp only [bind, Except.bind, arrived]
  rfl

end JarRemap.FileTree
