import JarRemap.Proofs.FileTree
import Mathlib.Data.Set.Insert
import Mathlib.Order.Defs.Unbundled

/-!
# What file operations change

Files change at the one place that a path leads to, directories only appear, and a tree in which
everything stands in a directory stays one.
-/

namespace JarRemap.FileTree

variable {tree : FileTree}

/-! ## What changes -/

/-- Files change at these places only, and directories stay. -/
structure Confined (places : Set Place) (before after : FileTree) : Prop where
  here : after.here = before.here
  files : ∀ place ∉ places, after.fileAt? place = before.fileAt? place
  directories : ∀ {place}, before.find? place = some .directory → after.find? place = some .directory
  rooted : before.Rooted → after.Rooted

variable {places : Set Place}

instance : IsPreorder FileTree (Confined places) where
  refl _ := ⟨rfl, fun _ _ => rfl, id, id⟩
  trans _ _ _ first second :=
    ⟨second.here.trans first.here,
      fun place outside => (second.files place outside).trans (first.files place outside),
      second.directories ∘ first.directories, second.rooted ∘ first.rooted⟩

theorem Confined.mono {larger : Set Place} (sub : places ⊆ larger) {before after : FileTree}
    (confined : Confined places before after) : Confined larger before after :=
  ⟨confined.here, fun place outside => confined.files place fun inside => outside (sub inside),
    confined.directories, confined.rooted⟩

/-- Where the directories of another tree are, its paths lead to the same places. -/
theorem target_of_directories {before after : FileTree} (here : after.here = before.here)
    (directories : ∀ {place}, before.find? place = some .directory →
      after.find? place = some .directory)
    {path : Path} {place : Place} (found : before.target path = .ok place) :
    after.target path = .ok place := by
  have walks {start found : Place} {names : List String} (walked : before.walk start names = .ok found) :
      after.walk start names = .ok found := by
    induction names generalizing start with
    | nil => exact walked
    | cons name names ih =>
      obtain ⟨directory, short, rest⟩ := (walk_cons_ok_iff _ _ _ _ _).mp walked
      exact (walk_cons_ok_iff _ _ _ _ _).mpr ⟨directories directory, short, ih rest⟩
  have departs : after.departure path = before.departure path := by
    rw [departure, departure, outset, outset, here]
  obtain ⟨start, departed, walked⟩ := (bind_ok_iff _ _ _).mp found
  exact (bind_ok_iff _ _ _).mpr ⟨start, departs.trans departed, walks walked⟩

/-- And a file that is there as well is read. -/
theorem read_of_directories {before after : FileTree} (here : after.here = before.here)
    (directories : ∀ {place}, before.find? place = some .directory →
      after.find? place = some .directory)
    {path : Path} {content : FileContent} (read : before.read path = .ok content)
    (found : after.fileAt? (placeOf before.here path) = some content) : after.read path = .ok content := by
  obtain ⟨place, reached, -, noSlash⟩ := (read_iff_target _ _ _).mp read
  obtain ⟨rfl, -⟩ := target_ok reached
  exact (read_iff_target _ _ _).mpr ⟨_, target_of_directories here directories reached, found, noSlash⟩

/-- A file outside the places is read as before. -/
theorem Confined.read {before after : FileTree} (confined : Confined places before after)
    {path : Path} {content : FileContent} (read : before.read path = .ok content)
    (outside : placeOf before.here path ∉ places) : after.read path = .ok content :=
  read_of_directories confined.here confined.directories read
    ((confined.files _ outside).trans (fileAt?_of_read read))

theorem fileAt?_erase (tree : FileTree) {place : Place} (proper : place ≠ []) (other : Place) :
    (tree.erase place).fileAt? other = if other = place then none else tree.fileAt? other := by
  rw [fileAt?, tree.find?_erase proper, fileAt?]
  split <;> simp_all

theorem confined_erase {place : Place} {content : FileContent}
    (file : tree.find? place = some (.file content)) : Confined {place} tree (tree.erase place) := by
  have proper : place ≠ [] := by
    rintro rfl
    simp at file
  -- A directory is at another place, since the erased one has a file.
  have stays {other : Place} (directory : tree.find? other = some .directory) :
      (tree.erase place).find? other = some .directory := by
    rw [tree.find?_erase proper, if_neg, directory]
    rintro rfl
    rw [directory] at file
    cases file
  refine ⟨rfl, fun other outside => ?_, stays, fun rooted =>
    ⟨fun found => ?_, stays rooted.here, rooted.names⟩⟩
  · rw [tree.fileAt?_erase proper, if_neg (by simpa using outside)]
  · rw [tree.find?_erase proper] at found
    split at found
    · cases found
    · exact stays (rooted.parents found)

/-- A node may be put where there is no directory and a name leads from one. -/
theorem confined_put {place : Place} (node : Node) (proper : place ≠ [])
    (other : tree.find? place ≠ some .directory)
    (parent : tree.Rooted → tree.find? place.tail = some .directory) :
    Confined {place} tree (tree.put place node) := by
  have stays {held : Place} (directory : tree.find? held = some .directory) :
      (tree.put place node).find? held = some .directory := by
    rw [tree.find?_put proper, if_neg, directory]
    rintro rfl
    exact other directory
  refine ⟨rfl, fun held outside => ?_, stays, fun rooted => ⟨fun {name held found} there => ?_,
    stays rooted.here, rooted.names⟩⟩
  · rw [fileAt?, tree.find?_put proper, if_neg (by simpa using outside), fileAt?]
  · rw [tree.find?_put proper] at there
    split at there
    next same =>
      subst same
      exact stays (parent rooted)
    · exact stays (rooted.parents there)

theorem confined_put_directory {place : Place} (proper : place ≠ [])
    (nothing : tree.find? place = none)
    (parent : tree.Rooted → tree.find? place.tail = some .directory) :
    Confined ∅ tree (tree.put place .directory) := by
  have confined := confined_put .directory proper (by simp [nothing]) parent
  refine ⟨rfl, fun other _ => ?_, confined.directories, confined.rooted⟩
  by_cases here : other = place
  · rw [fileAt?, tree.find?_put proper, if_pos here, fileAt?, here, nothing]
  · exact confined.files other (by simpa using here)

/-! ## Operations -/

theorem put_file {path : Path} {place : Place} {content : FileContent}
    (found : tree.target path = .ok place) (other : tree.find? place ≠ some .directory) :
    Confined {placeOf tree.here path} tree (tree.put place (.file content)) ∧
      (tree.put place (.file content)).fileAt? (placeOf tree.here path) = some content := by
  have proper : place ≠ [] := by
    rintro rfl
    exact other tree.find?_root
  rw [← (target_ok found).1]
  refine ⟨confined_put _ proper other fun rooted => rooted.target_tail found other, ?_⟩
  rw [fileAt?, tree.find?_put proper, if_pos rfl]

theorem write_ok {path : Path} {content : FileContent} {after : FileTree}
    (written : tree.write path content = .ok after) :
    Confined {placeOf tree.here path} tree after ∧
      after.fileAt? (placeOf tree.here path) = some content := by
  rw [write] at written
  split at written
  · obtain ⟨_, -, fails⟩ := (bind_ok_iff _ _ _).mp written
    cases fails
  · obtain ⟨place, found, written⟩ := (bind_ok_iff _ _ _).mp written
    split at written
    · cases written
    next other =>
      obtain rfl := (pure_ok_iff _ _).mp written
      exact put_file found other

/-- What is moved gets a name of its own, under which it is read. -/
theorem moveTo_ok {path : Path} {content : FileContent} {after : FileTree}
    (moved : tree.moveTo path content = .ok after) :
    (path.endsInName ∧ path.namesDirectory = false) ∧ Confined {placeOf tree.here path} tree after ∧
      after.read path = .ok content := by
  obtain ⟨place, found, moved⟩ := (bind_ok_iff _ _ _).mp moved
  rw [mapError_ok_iff] at found
  split at moved
  · cases moved
  next named =>
    split at moved
    · cases moved
    next file =>
      split at moved
      · cases moved
      next other =>
        obtain rfl := (pure_ok_iff _ _).mp moved
        obtain ⟨confined, placed⟩ := put_file found other
        rw [← (target_ok found).1] at placed
        -- The path leads to the same place as before, since all directories are still there.
        have reached := target_of_directories confined.here confined.directories found
        have noSlash : path.namesDirectory = false := by simpa using file
        exact ⟨⟨by simpa using named, noSlash⟩, confined,
          (read_iff_target _ _ _).mpr ⟨place, reached, placed, noSlash⟩⟩

theorem remove_ok {path : Path} {after : FileTree} (removed : tree.remove path = .ok after) :
    Confined {placeOf tree.here path} tree after ∧
      after.fileAt? (placeOf tree.here path) = none := by
  obtain ⟨⟨place, node⟩, found, removed⟩ := (bind_ok_iff _ _ _).mp removed
  obtain ⟨-, rfl, there, -⟩ := locate_ok found
  cases node with
  | directory => cases removed
  | file content =>
    obtain rfl := (pure_ok_iff _ _).mp removed
    have proper : placeOf tree.here path ≠ [] := by
      intro root
      simp [root] at there
    exact ⟨confined_erase there, by rw [tree.fileAt?_erase proper, if_pos rfl]⟩

theorem find?_of_remove {path : Path} {after : FileTree} (removed : tree.remove path = .ok after)
    (other : Place) :
    after.find? other = if other = placeOf tree.here path then none else tree.find? other := by
  obtain ⟨⟨place, node⟩, found, removed⟩ := (bind_ok_iff _ _ _).mp removed
  obtain ⟨-, rfl, there, -⟩ := locate_ok found
  cases node with
  | directory => cases removed
  | file content =>
    obtain rfl := (pure_ok_iff _ _).mp removed
    have proper : placeOf tree.here path ≠ [] := by
      intro root
      simp [root] at there
    exact tree.find?_erase proper other

/-- What can be read when a file was removed was there before. -/
theorem read_of_remove {path other : Path} {after : FileTree} (removed : tree.remove path = .ok after)
    {content : FileContent} (read : after.read other = .ok content) : tree.read other = .ok content := by
  have kept {place : Place} {node : Node} (found : after.find? place = some node) :
      tree.find? place = some node := by
    rw [find?_of_remove removed] at found
    split at found
    · cases found
    · exact found
  have here := (remove_ok removed).1.here
  refine read_of_directories here.symm kept read ((fileAt?_eq_some_iff _ _ _).mpr (kept ?_))
  exact (fileAt?_eq_some_iff _ _ _).mp (fileAt?_of_read read)

theorem locate_of_remove_notFound {path : Path} (missing : tree.remove path = .error .notFound) :
    tree.locate path = .error .notFound := by
  rw [remove] at missing
  cases found : tree.locate path with
  | error fault =>
    rw [found] at missing
    obtain rfl := Except.error.inj missing
    rfl
  | ok there =>
    obtain ⟨place, content | _⟩ := there <;> rw [found] at missing <;> cases missing

/-- If a file is where a passable path leads, it is not for want of anything that it cannot be found. -/
theorem locate_ne_notFound (rooted : tree.Rooted) {path : Path} (passable : tree.Passable path)
    {ending : String} (solid : '/' ∉ ending.toList) (longer : 2 < ending.length) {content : FileContent}
    (found : tree.find? (placeOf tree.here (path.extend ending)) = some (.file content)) :
    tree.locate (path.extend ending) ≠ .error .notFound := by
  obtain ⟨front, name, own, -, extended⟩ := Path.exists_steps_extend path
  obtain ⟨steps, absolute⟩ := extended ending (by rintro rfl; simp at longer) solid
  have proper := Path.append_ne_dots longer name
  rw [placeOf, steps, List.foldl_append, List.foldl_cons, List.foldl_nil, stepFrom, if_neg proper.1,
    if_neg proper.2, absolute] at found
  have directory := rooted.parents found
  -- The directories above the file are there, so they can be passed, unless a name is too long.
  have reached : tree.walk (if path.isAbsolute then [] else tree.here) front =
      .ok (front.foldl stepFrom (if path.isAbsolute then [] else tree.here)) ∨
        tree.walk (if path.isAbsolute then [] else tree.here) front = .error .nameTooLong := by
    exact (rooted.walk_through (fun above up => passable above (up.trans own)) directory).2
  have given : (path.extend ending).text ≠ "" := by
    intro empty
    have length := congrArg String.length empty
    rw [Path.extend, String.length_append, String.length_empty] at length
    omega
  intro located
  rw [locate, target, steps] at located
  cases departed : tree.departure (path.extend ending) with
  | error fault =>
    rw [departed] at located
    obtain rfl := Except.error.inj located
    exact given (departure_notFound departed)
  | ok start =>
    obtain ⟨-, rfl⟩ := outset_ok (departure_ok departed).1
    rw [departed, absolute] at located
    simp only [bind, Except.bind, walk_append] at located
    obtain reached | reached := reached
    · -- Only the last step is left, and it leads to the file.
      rw [reached] at located
      simp only [walk, enter, directory, bind, Except.bind, stepFrom, if_neg proper.1,
        if_neg proper.2] at located
      by_cases long : (name ++ ending).utf8ByteSize > maxName
      · rw [if_pos long] at located
        cases located
      · rw [if_neg long] at located
        simp only [arrive, found] at located
        split at located <;> cases located
    · rw [reached] at located
      cases located

/-- Where a passable path leads, nothing is left when there was nothing to remove. -/
theorem remove_notFound (rooted : tree.Rooted) {path : Path} (passable : tree.Passable path)
    {ending : String} (solid : '/' ∉ ending.toList) (longer : 2 < ending.length)
    (missing : tree.remove (path.extend ending) = .error .notFound) :
    tree.fileAt? (placeOf tree.here (path.extend ending)) = none := by
  by_contra there
  obtain ⟨content, file⟩ := Option.ne_none_iff_exists'.mp there
  exact locate_ne_notFound rooted passable solid longer ((fileAt?_eq_some_iff _ _ _).mp file)
    (locate_of_remove_notFound missing)

theorem makeDirectory_ok {path : Path} {after : FileTree}
    (made : tree.makeDirectory path = .ok after) : Confined ∅ tree after := by
  obtain ⟨place, found, made⟩ := (bind_ok_iff _ _ _).mp made
  split at made
  · cases made
  next nothing =>
    obtain rfl := (pure_ok_iff _ _).mp made
    have absent : tree.find? place = none := by simpa using nothing
    have proper : place ≠ [] := by
      rintro rfl
      simp at absent
    exact confined_put_directory proper absent fun rooted =>
      rooted.target_tail found (by simp [absent])

theorem ensureDirectory_ok {path : Path} {after : FileTree}
    (made : tree.ensureDirectory path = .ok after) : Confined ∅ tree after := by
  rw [ensureDirectory] at made
  split at made
  next making =>
    cases made
    exact makeDirectory_ok making
  · split at made <;> cases made
    exact refl tree

/-- Directories are made, whether or not all of them can be. -/
theorem makeDirectories_confined (tree : FileTree) (depth : Nat) (path : Path) :
    Confined ∅ tree (tree.makeDirectories depth path).1 := by
  -- The depth bounds how far the parents are followed upwards, each of which is made in the same
  -- way.
  induction depth generalizing path with
  | zero => exact refl tree
  | succ depth ih =>
    rw [makeDirectories]
    split
    · exact refl tree
    · split
      next made => exact ensureDirectory_ok made
      · split
        · exact refl tree
        next parent _ =>
          have parents := ih parent
          split
          next failed => exact failed ▸ parents
          next reached =>
            rw [reached] at parents
            split
            next made => exact IsTrans.trans _ _ _ parents (ensureDirectory_ok made)
            · exact parents
      · exact refl tree

theorem makeAll_confined (tree : FileTree) (path : Path) : Confined ∅ tree (tree.makeAll path).1 :=
  tree.makeDirectories_confined _ _

/-! ## What stays where a path leads -/

theorem find?_of_write {path : Path} {content : FileContent} {after : FileTree}
    (written : tree.write path content = .ok after) {other : Place}
    (elsewhere : other ≠ placeOf tree.here path) : after.find? other = tree.find? other := by
  rw [write] at written
  split at written
  · obtain ⟨_, -, fails⟩ := (bind_ok_iff _ _ _).mp written
    cases fails
  · obtain ⟨place, found, written⟩ := (bind_ok_iff _ _ _).mp written
    split at written
    · cases written
    next file =>
      obtain rfl := (pure_ok_iff _ _).mp written
      obtain ⟨rfl, -⟩ := target_ok found
      have proper : placeOf tree.here path ≠ [] := by
        intro root
        simp [root] at file
      rw [tree.find?_put proper, if_neg elsewhere]

/-- A directory is made where there was nothing. -/
theorem find?_of_makeDirectory {path : Path} {after : FileTree}
    (made : tree.makeDirectory path = .ok after) :
    tree.find? (placeOf tree.here path) = none ∧
      ∀ other ≠ placeOf tree.here path, after.find? other = tree.find? other := by
  obtain ⟨place, found, made⟩ := (bind_ok_iff _ _ _).mp made
  obtain ⟨rfl, -⟩ := target_ok found
  split at made
  · cases made
  next nothing =>
    obtain rfl := (pure_ok_iff _ _).mp made
    have absent : tree.find? (placeOf tree.here path) = none := by simpa using nothing
    have proper : placeOf tree.here path ≠ [] := by
      intro root
      simp [root] at absent
    exact ⟨absent, fun other elsewhere => by rw [tree.find?_put proper, if_neg elsewhere]⟩

/-- From a place where nothing is, steps only lead further down, unless they lead up from where no
directory is. -/
theorem Rooted.length_foldl (rooted : tree.Rooted) {place : Place} (nothing : tree.find? place = none)
    (names : List String) (up : ∀ front, front ++ [".."] <+: names →
      tree.find? (front.foldl stepFrom place) = some .directory) :
    (names.foldl stepFrom place).length = place.length + names.countP (· != ".") := by
  induction names generalizing place with
  | nil => rfl
  | cons name names ih =>
    have later {next : Place} (step : stepFrom place name = next) (front : List String)
        (upward : front ++ [".."] <+: names) :
        tree.find? (front.foldl stepFrom next) = some .directory :=
      step ▸ up (name :: front) (List.cons_prefix_cons.mpr ⟨rfl, upward⟩)
    rw [List.foldl_cons, List.countP_cons]
    by_cases dot : name = "."
    · have step : stepFrom place name = place := if_pos dot
      rw [step, ih nothing (later step), dot]
      rfl
    · have notDots : name ≠ ".." := by
        rintro rfl
        have directory := up [] (by simp)
        rw [List.foldl_nil, nothing] at directory
        cases directory
      have step : stepFrom place name = name :: place := by rw [stepFrom, if_neg dot, if_neg notDots]
      -- Nothing can be in a place that is not there, so the next place is missing as well.
      have beneath : tree.find? (name :: place) = none := by
        by_contra there
        obtain ⟨node, found⟩ := Option.ne_none_iff_exists'.mp there
        rw [rooted.parents found] at nothing
        cases nothing
      rw [step, ih beneath (later step), List.length_cons, if_pos (by simpa using dot)]
      omega

/-- A path that leads to where another one passes. -/
structure OnWay (path destination : Path) : Prop where
  absolute : path.isAbsolute = destination.isAbsolute
  rest : ∃ rest, destination.steps = path.steps ++ rest ∧ ∃ step ∈ rest, step ≠ "."

theorem onWay_parent {path parent : Path} (above : path.parent? = some parent)
    (given : parent.text ≠ "") : OnWay parent path :=
  let ⟨absolute, rest⟩ := Path.steps_of_parent? above given
  ⟨absolute, rest⟩

theorem OnWay.parent {path parent destination : Path} (onWay : OnWay path destination)
    (above : path.parent? = some parent) (given : parent.text ≠ "") : OnWay parent destination := by
  obtain ⟨absolute, rest, steps, step, member, notDot⟩ := onWay_parent above given
  obtain ⟨others, further, -⟩ := onWay.rest
  refine ⟨absolute.trans onWay.absolute, rest ++ others, ?_, step, List.mem_append_left _ member, notDot⟩
  rw [further, steps, List.append_assoc]

theorem Confined.passable {before after : FileTree} (confined : Confined places before after)
    {path : Path} (passable : before.Passable path) : after.Passable path := by
  intro front up
  rw [confined.here]
  exact confined.directories (passable front up)

section

variable {path destination : Path}

/-- Where a passable path leads, no directory is made for those above it. -/
theorem find?_of_ensureDirectory (rooted : tree.Rooted) (passable : tree.Passable destination)
    (onWay : OnWay path destination) {after : FileTree} (made : tree.ensureDirectory path = .ok after) :
    after.find? (placeOf tree.here destination) = tree.find? (placeOf tree.here destination) := by
  rw [ensureDirectory] at made
  split at made
  next making =>
    cases made
    obtain ⟨nothing, others⟩ := find?_of_makeDirectory making
    obtain ⟨rest, steps, step, member, notDot⟩ := onWay.rest
    have place : placeOf tree.here destination = rest.foldl stepFrom (placeOf tree.here path) := by
      rw [placeOf, steps, List.foldl_append, ← onWay.absolute, placeOf]
    -- The destination is further down than the directory that was made, so it is another place.
    refine others _ fun same => ?_
    have lengths := rooted.length_foldl nothing rest fun front up => by
      have reached := passable (path.steps ++ front)
        (by rw [steps, List.append_assoc]; exact (List.prefix_append_right_inj _).mpr up)
      rwa [List.foldl_append, ← onWay.absolute] at reached
    rw [← place, same] at lengths
    have counted : 0 < rest.countP (· != ".") :=
      List.countP_pos_iff.mpr ⟨step, member, by simpa using notDot⟩
    omega
  · split at made <;> cases made
    rfl

theorem makeDirectories_empty {path : Path} (empty : path.text = "") (depth : Nat) :
    (tree.makeDirectories depth path).1 = tree := by
  cases depth with
  | zero => rfl
  | succ depth => simp [makeDirectories, empty]

theorem find?_of_makeDirectories (rooted : tree.Rooted) (passable : tree.Passable destination)
    (onWay : OnWay path destination) (depth : Nat) :
    (tree.makeDirectories depth path).1.find? (placeOf tree.here destination) =
      tree.find? (placeOf tree.here destination) := by
  induction depth generalizing path with
  | zero => rfl
  | succ depth ih =>
    rw [makeDirectories]
    split
    · rfl
    · split
      next made => exact find?_of_ensureDirectory rooted passable onWay made
      · split
        · rfl
        next parent above =>
          -- The parents lie on the way as well, except for the empty path, which is never made.
          have parents : (tree.makeDirectories depth parent).1.find?
              (placeOf tree.here destination) = tree.find? (placeOf tree.here destination) := by
            by_cases given : parent.text = ""
            · rw [makeDirectories_empty given]
            · exact ih (onWay.parent above given)
          have confined := tree.makeDirectories_confined depth parent
          split
          next failed => exact failed ▸ parents
          next made reached =>
            rw [reached] at parents confined
            split
            next further =>
              have ensured := find?_of_ensureDirectory (confined.rooted rooted)
                (confined.passable passable) onWay further
              rw [confined.here] at ensured
              exact ensured.trans parents
            · exact parents
      · rfl

/-- Where everybody works, there is a directory already. -/
theorem Rooted.makeAll_here (rooted : tree.Rooted) : (tree.makeAll ⟨"."⟩).1 = tree := by
  have reached : tree.target ⟨"."⟩ = .ok tree.here := by
    have entered : tree.enter tree.here = .ok () := by rw [enter, rooted.here]
    have departed : tree.departure ⟨"."⟩ = .ok tree.here := rfl
    rw [FileTree.target, departed]
    change (do tree.enter tree.here; .ok tree.here) = _
    rw [entered]
    rfl
  have there : tree.isDirectory ⟨"."⟩ := by
    rw [isDirectory, locate, reached]
    simp only [bind, Except.bind, arrive, rooted.here]
  -- A directory that is already there is reported as such, and taken for one that was made.
  have refused : tree.makeDirectory ⟨"."⟩ = .error .alreadyExists := by
    rw [makeDirectory, reached]
    simp only [bind, Except.bind, rooted.here]
    rfl
  have ensured : tree.ensureDirectory ⟨"."⟩ = .ok tree := by
    rw [ensureDirectory, refused]
    exact if_pos there
  rw [makeAll, makeDirectories, ensured]
  rfl

end

end JarRemap.FileTree
