import JarRemap.FileTree
import JarRemap.Proofs.Outcome
import JarRemap.Proofs.Path

/-!
# Places in a file tree

A path that can be followed leads where its steps lead, whatever the tree. So what can be found or
changed under a path is known from its steps alone.
-/

namespace JarRemap.FileTree

/-- Where the path leads from a working directory, if its steps can be taken. -/
def placeOf (here : Place) (path : Path) : Place :=
  path.steps.foldl stepFrom (if path.isAbsolute then [] else here)

/-- The file at a place, if there is one. -/
def fileAt? (tree : FileTree) (place : Place) : Option FileContent :=
  match tree.find? place with
  | some (.file content) => some content
  | _ => none

theorem fileAt?_eq_some_iff (tree : FileTree) (place : Place) (content : FileContent) :
    tree.fileAt? place = some content ↔ tree.find? place = some (.file content) := by
  rw [fileAt?]
  split
  next found => simp [found]
  next other => simpa using other content

/-! ## Single nodes -/

@[simp] theorem find?_root (tree : FileTree) : tree.find? [] = some .directory := if_pos rfl

@[simp] theorem here_put (tree : FileTree) (place : Place) (node : Node) :
    (tree.put place node).here = tree.here := rfl

@[simp] theorem here_erase (tree : FileTree) (place : Place) : (tree.erase place).here = tree.here :=
  rfl

theorem lookup_erased (nodes : List (Place × Node)) (place other : Place) :
    (nodes.filter (·.1 != place)).lookup other =
      if other = place then none else nodes.lookup other := by
  induction nodes with
  | nil => simp
  | cons node nodes ih =>
    obtain ⟨found, node⟩ := node
    by_cases erased : found = place
    · rw [List.filter_cons_of_neg (by simp [erased]), ih, erased]
      split
      · rfl
      next other_ => rw [List.lookup_cons, beq_false_of_ne other_]
    · rw [List.filter_cons_of_pos (by simp [erased]), List.lookup_cons, List.lookup_cons, ih]
      by_cases here : other = found
      · simp [here, erased]
      · rw [beq_false_of_ne here]

theorem find?_erase (tree : FileTree) {place : Place} (proper : place ≠ []) (other : Place) :
    (tree.erase place).find? other = if other = place then none else tree.find? other := by
  by_cases root : other = []
  · simp [root, Ne.symm proper]
  · rw [find?, find?, if_neg root, if_neg root]
    exact lookup_erased tree.nodes place other

theorem find?_put (tree : FileTree) {place : Place} (proper : place ≠ []) (node : Node)
    (other : Place) :
    (tree.put place node).find? other = if other = place then some node else tree.find? other := by
  by_cases root : other = []
  · simp [root, Ne.symm proper]
  by_cases here : other = place
  · simp [find?, put, here, proper]
  · have erased := lookup_erased tree.nodes place other
    rw [if_neg here] at erased
    rw [find?, find?, if_neg root, if_neg root, if_neg here, put, List.lookup_cons,
      beq_false_of_ne here]
    exact erased

/-! ## Following steps -/

theorem walk_cons_ok_iff (tree : FileTree) (place : Place) (name : String) (rest : List String)
    (found : Place) :
    tree.walk place (name :: rest) = .ok found ↔
      tree.find? place = some .directory ∧ name.utf8ByteSize ≤ maxName ∧
        tree.walk (stepFrom place name) rest = .ok found := by
  have entered : tree.enter place = .ok () ↔ tree.find? place = some .directory := by
    rw [enter]
    split <;> simp_all
  rw [walk, bind_ok_iff]
  constructor
  · rintro ⟨⟨⟩, directory, rest⟩
    split at rest
    · cases rest
    · exact ⟨entered.mp directory, by omega, rest⟩
  · rintro ⟨directory, short, rest⟩
    exact ⟨(), entered.mpr directory, by rwa [if_neg (by omega)]⟩

theorem walk_ok {tree : FileTree} {place found : Place} {names : List String}
    (walked : tree.walk place names = .ok found) : found = names.foldl stepFrom place := by
  induction names generalizing place with
  | nil => exact (Except.ok.inj walked).symm
  | cons name names ih => exact ih ((walk_cons_ok_iff _ _ _ _ _).mp walked).2.2

theorem walk_append (tree : FileTree) (place : Place) (names more : List String) :
    tree.walk place (names ++ more) = tree.walk place names >>= fun middle => tree.walk middle more := by
  induction names generalizing place with
  | nil => rfl
  | cons name names ih =>
    rw [List.cons_append, walk, walk, ih]
    cases tree.enter place with
    | error fault => rfl
    | ok _ =>
      by_cases long : name.utf8ByteSize > maxName
      · simp only [bind, Except.bind, if_pos long]
        rfl
      · simp only [bind, Except.bind, if_neg long]

theorem walk_concat_ok_iff (tree : FileTree) (place : Place) (names : List String) (name : String)
    (found : Place) :
    tree.walk place (names ++ [name]) = .ok found ↔
      ∃ middle, tree.walk place names = .ok middle ∧ tree.find? middle = some .directory ∧
        name.utf8ByteSize ≤ maxName ∧ found = stepFrom middle name := by
  rw [walk_append, bind_ok_iff]
  simp only [walk_cons_ok_iff]
  simp [walk, eq_comm]

theorem outset_ok {tree : FileTree} {path : Path} {start : Place}
    (given : tree.outset path = .ok start) :
    '\x00' ∉ path.text.toList ∧ start = if path.isAbsolute then [] else tree.here := by
  rw [outset] at given
  split at given
  · cases given
  next proper =>
    split at given
    · cases given
    · exact ⟨by simpa using proper, (Except.ok.inj given).symm⟩

theorem departure_ok {tree : FileTree} {path : Path} {start : Place}
    (given : tree.departure path = .ok start) :
    tree.outset path = .ok start ∧ path.text.utf8ByteSize ≤ maxPath := by
  rw [departure, bind_ok_iff] at given
  obtain ⟨place, found, given⟩ := given
  split at given
  · cases given
  next short =>
    obtain rfl := (pure_ok_iff _ _).mp given
    exact ⟨found, by omega⟩

theorem departure_notFound {tree : FileTree} {path : Path}
    (missing : tree.departure path = .error .notFound) : path.text = "" := by
  rw [departure, outset] at missing
  split at missing
  · cases missing
  · split at missing
    next empty => simpa using empty
    · simp only [bind, Except.bind] at missing
      split at missing <;> cases missing

/-- A path that can be followed leads to its place. -/
theorem target_ok {tree : FileTree} {path : Path} {place : Place}
    (found : tree.target path = .ok place) :
    place = placeOf tree.here path ∧ tree.follow path = .ok place := by
  rw [target, bind_ok_iff] at found
  obtain ⟨start, departed, walked⟩ := found
  have given := (departure_ok departed).1
  obtain ⟨-, rfl⟩ := outset_ok given
  rw [follow, given]
  exact ⟨walk_ok walked, walked⟩

theorem locate_ok {tree : FileTree} {path : Path} {place : Place} {node : Node}
    (found : tree.locate path = .ok (place, node)) :
    tree.target path = .ok place ∧ place = placeOf tree.here path ∧ tree.find? place = some node ∧
      tree.arrive path place = .ok (place, node) := by
  rw [locate, bind_ok_iff] at found
  obtain ⟨target, reached, arrived⟩ := found
  suffices target = place ∧ tree.find? place = some node by
    obtain ⟨rfl, there⟩ := this
    exact ⟨reached, (target_ok reached).1, there, arrived⟩
  rw [arrive] at arrived
  split at arrived
  · cases arrived
  next content there =>
    split at arrived <;> cases arrived
    exact ⟨rfl, there⟩
  next there =>
    cases arrived
    exact ⟨rfl, there⟩

theorem read_ok_iff (tree : FileTree) (path : Path) (content : FileContent) :
    tree.read path = .ok content ↔ ∃ place, tree.locate path = .ok (place, .file content) := by
  rw [read, bind_ok_iff]
  constructor
  · rintro ⟨⟨place, node⟩, found, given⟩
    cases node with
    | file held =>
      obtain rfl := (pure_ok_iff _ _).mp given
      exact ⟨place, found⟩
    | directory => cases given
  · rintro ⟨place, found⟩
    exact ⟨_, found, rfl⟩

/-- What is read is the file at the place of the path. -/
theorem fileAt?_of_read {tree : FileTree} {path : Path} {content : FileContent}
    (read : tree.read path = .ok content) :
    tree.fileAt? (placeOf tree.here path) = some content := by
  obtain ⟨place, found⟩ := (read_ok_iff _ _ _).mp read
  obtain ⟨-, rfl, there, -⟩ := locate_ok found
  exact (fileAt?_eq_some_iff _ _ _).mpr there

/-- A file is read if the path can be followed to it and has no slash at its end. -/
theorem read_iff_target (tree : FileTree) (path : Path) (content : FileContent) :
    tree.read path = .ok content ↔ ∃ place, tree.target path = .ok place ∧
      tree.fileAt? place = some content ∧ path.namesDirectory = false := by
  rw [read_ok_iff]
  constructor
  · rintro ⟨place, located⟩
    obtain ⟨found, -, there, arrived⟩ := locate_ok located
    rw [arrive, there] at arrived
    refine ⟨place, found, (fileAt?_eq_some_iff _ _ _).mpr there, ?_⟩
    by_contra slash
    rw [Bool.not_eq_false] at slash
    simp [slash] at arrived
  · rintro ⟨place, found, file, slash⟩
    refine ⟨place, ?_⟩
    rw [locate, found]
    change tree.arrive path place = _
    rw [arrive, (fileAt?_eq_some_iff _ _ _).mp file]
    simp [slash]

theorem isFile_iff (tree : FileTree) (path : Path) :
    tree.isFile path ↔ ∃ content, tree.read path = .ok content := by
  simp only [isFile, read_ok_iff]
  split
  next place content found => exact ⟨fun _ => ⟨content, place, found⟩, fun _ => rfl⟩
  next other =>
    constructor
    · intro file
      cases file
    · rintro ⟨content, place, found⟩
      exact absurd found (other place content)

/-! ## Trees as they are -/

/-- What can be the name of a file or a directory. -/
structure IsName (name : String) : Prop where
  given : name ≠ ""
  notDot : name ≠ "."
  notDots : name ≠ ".."
  noSlash : '/' ∉ name.toList
  noZero : '\x00' ∉ name.toList
  short : name.utf8ByteSize ≤ maxName

/-- Everything stands in a directory, and whoever works here works in one. -/
structure Rooted (tree : FileTree) : Prop where
  parents : ∀ {name place node}, tree.find? (name :: place) = some node →
    tree.find? place = some .directory
  here : tree.find? tree.here = some .directory
  names : ∀ name ∈ tree.here, IsName name

/-- Files right in the root need no other directory. -/
theorem rooted_flat {nodes : List (Place × Node)} (top : ∀ node ∈ nodes, node.1.tail = []) :
    (FileTree.mk nodes []).Rooted := by
  refine ⟨fun {name place node} found => ?_, rfl, by simp⟩
  rw [find?, if_neg (List.cons_ne_nil _ _)] at found
  obtain ⟨front, back, rfl : nodes = _, -⟩ := List.lookup_eq_some_iff.mp found
  obtain rfl : place = [] := top (name :: place, node) (by simp)
  exact find?_root _

variable {tree : FileTree}

theorem Rooted.tail (rooted : tree.Rooted) {place : Place}
    (directory : tree.find? place = some .directory) : tree.find? place.tail = some .directory := by
  cases place with
  | nil => exact directory
  | cons name place => exact rooted.parents directory

theorem Rooted.suffix (rooted : tree.Rooted) {place other : Place} (above : place <:+ other)
    (directory : tree.find? other = some .directory) : tree.find? place = some .directory := by
  induction other with
  | nil => rwa [List.suffix_nil.mp above]
  | cons name other ih =>
    obtain rfl | above := List.suffix_cons_iff.mp above
    · exact directory
    · exact ih above (rooted.parents directory)

theorem Rooted.beneath (rooted : tree.Rooted) {front : List String} {name : String} {place : Place}
    {node : Node} (there : tree.find? (front ++ name :: place) = some node) :
    tree.find? place = some .directory := by
  cases front with
  | nil => exact rooted.parents there
  | cons first front =>
    exact rooted.suffix ((List.suffix_cons name place).trans (List.suffix_append front _))
      (rooted.parents there)

theorem Rooted.start (rooted : tree.Rooted) (path : Path) :
    tree.find? (if path.isAbsolute then [] else tree.here) = some .directory := by
  split
  · exact tree.find?_root
  · exact rooted.here

/-- Where a path leads to anything but a directory, a name leads there from a directory. -/
theorem Rooted.target (rooted : tree.Rooted) {path : Path} {place : Place}
    (found : tree.target path = .ok place) (other : tree.find? place ≠ some .directory) :
    ∃ name parent, place = name :: parent ∧ tree.find? parent = some .directory := by
  rw [FileTree.target, bind_ok_iff] at found
  obtain ⟨start, departed, walked⟩ := found
  have directory := (outset_ok (departure_ok departed).1).2 ▸ rooted.start path
  obtain steps | ⟨front, last, steps⟩ := List.eq_nil_or_concat path.steps
  · rw [steps] at walked
    obtain rfl := Except.ok.inj walked
    exact absurd directory other
  · rw [steps, List.concat_eq_append, walk_concat_ok_iff] at walked
    obtain ⟨parent, -, entered, -, rfl⟩ := walked
    -- Dots lead to a directory again.
    by_cases dot : last = "."
    · rw [stepFrom, if_pos dot] at other
      exact absurd entered other
    by_cases dots : last = ".."
    · rw [stepFrom, if_neg dot, if_pos dots] at other
      exact absurd (rooted.tail entered) other
    · exact ⟨last, parent, by rw [stepFrom, if_neg dot, if_neg dots], entered⟩

theorem Rooted.target_tail (rooted : tree.Rooted) {path : Path} {place : Place}
    (found : tree.target path = .ok place) (other : tree.find? place ≠ some .directory) :
    tree.find? place.tail = some .directory := by
  obtain ⟨name, parent, rfl, directory⟩ := rooted.target found other
  exact directory

/-- Wherever a step of the path leads up, it leads up from a directory. -/
def Passable (tree : FileTree) (path : Path) : Prop :=
  ∀ front, front ++ [".."] <+: path.steps →
    tree.find? (front.foldl stepFrom (if path.isAbsolute then [] else tree.here)) = some .directory

theorem passable_of_notMem {path : Path} (onward : ".." ∉ path.steps) : tree.Passable path :=
  fun _ up => absurd (up.subset (by simp)) onward

/-- Such steps to a directory can be taken, unless one of them is too long. -/
theorem Rooted.walk_through (rooted : tree.Rooted) {place : Place} {names : List String}
    (up : ∀ front, front ++ [".."] <+: names →
      tree.find? (front.foldl stepFrom place) = some .directory)
    (directory : tree.find? (names.foldl stepFrom place) = some .directory) :
    tree.find? place = some .directory ∧
      (tree.walk place names = .ok (names.foldl stepFrom place) ∨
        tree.walk place names = .error .nameTooLong) := by
  induction names generalizing place with
  | nil => exact ⟨directory, .inl rfl⟩
  | cons name names ih =>
    obtain ⟨reached, rest⟩ := ih (fun front upward => up (name :: front)
      (List.cons_prefix_cons.mpr ⟨rfl, upward⟩)) directory
    -- A step down can only lead to a directory from one, and for a step up this is presupposed.
    have here : tree.find? place = some .directory := by
      by_cases dots : name = ".."
      · exact up [] (by simp [dots])
      · rw [stepFrom, if_neg dots] at reached
        split at reached
        · exact reached
        · exact rooted.parents reached
    refine ⟨here, ?_⟩
    have entered : tree.enter place = .ok () := by rw [enter, here]
    rw [walk, entered]
    by_cases long : name.utf8ByteSize > maxName
    · exact .inr (if_pos long)
    · simpa [bind, Except.bind, long] using rest

end JarRemap.FileTree
