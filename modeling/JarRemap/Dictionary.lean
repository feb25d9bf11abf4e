/-!
# Dictionaries

Values by name, in the order of the names. There is one value for a name, so two dictionaries with
the same values are equal.
-/

namespace JarRemap

structure Dictionary (α : Type) where
  entries : List (String × α)
  sorted : entries.Pairwise (·.1 < ·.1)
deriving DecidableEq, Repr

namespace Dictionary

variable {α : Type}

def empty : Dictionary α := ⟨[], .nil⟩

def size (table : Dictionary α) : Nat := table.entries.length

def get? (table : Dictionary α) (key : String) : Option α := table.entries.lookup key

/-- The entries with another value for `key`, which takes its place in the order of the names. -/
def inserted (key : String) (value : α) : List (String × α) → List (String × α)
  | [] => [(key, value)]
  | (other, old) :: rest =>
    if key < other then (key, value) :: (other, old) :: rest
    else if key = other then (key, value) :: rest
    else (other, old) :: inserted key value rest

theorem mem_inserted {key : String} {value : α} {entries : List (String × α)}
    {entry : String × α} (member : entry ∈ inserted key value entries) :
    entry = (key, value) ∨ entry ∈ entries := by
  induction entries with
  | nil => simpa [inserted] using member
  | cons head rest ih =>
    simp only [inserted] at member
    split at member
    · simpa using member
    · split at member
      · simp only [List.mem_cons] at member ⊢
        grind
      · simp only [List.mem_cons] at member ⊢
        grind

theorem sorted_inserted (key : String) (value : α) {entries : List (String × α)}
    (sorted : entries.Pairwise (·.1 < ·.1)) :
    (inserted key value entries).Pairwise (·.1 < ·.1) := by
  induction entries with
  | nil => simp [inserted]
  | cons head rest ih =>
    obtain ⟨smallest, ordered⟩ := List.pairwise_cons.1 sorted
    simp only [inserted]
    split
    · next less =>
      refine List.pairwise_cons.2 ⟨fun entry member => ?_, sorted⟩
      rcases List.mem_cons.1 member with rfl | member
      · exact less
      · exact String.lt_trans less (smallest entry member)
    · next notLess =>
      split
      · next equal =>
        subst equal
        exact List.pairwise_cons.2 ⟨smallest, ordered⟩
      · next differ =>
        refine List.pairwise_cons.2 ⟨fun entry member => ?_, ih ordered⟩
        rcases mem_inserted member with rfl | member
        · exact Std.lt_of_le_of_ne (Std.not_lt.1 notLess) (Ne.symm differ)
        · exact smallest entry member

/-- A later value takes the place of an earlier one. -/
def insert (table : Dictionary α) (key : String) (value : α) : Dictionary α :=
  ⟨inserted key value table.entries, sorted_inserted key value table.sorted⟩

/-- Changes the value for `key`, if there is one. -/
def modify (table : Dictionary α) (key : String) (change : α → α) : Dictionary α where
  entries := table.entries.map fun (other, value) =>
    (other, if other = key then change value else value)
  sorted := by
    rw [List.pairwise_map]
    exact table.sorted

def ofList (entries : List (String × α)) : Dictionary α :=
  entries.foldl (fun table (key, value) => table.insert key value) empty

/-- An entry with a name behind all others goes to the end. -/
theorem inserted_last {key : String} {entries : List (String × α)}
    (last : ∀ entry ∈ entries, entry.1 < key) (value : α) :
    inserted key value entries = entries ++ [(key, value)] := by
  induction entries with
  | nil => rfl
  | cons head rest ih =>
    obtain ⟨less, others⟩ := List.forall_mem_cons.1 last
    have differ : key ≠ head.1 := fun same => String.lt_irrefl key (same ▸ less)
    rw [inserted, if_neg (String.lt_asymm less), if_neg differ, ih others, List.cons_append]

private theorem entries_foldl_insert (table : Dictionary α) {entries : List (String × α)}
    (sorted : (table.entries ++ entries).Pairwise (·.1 < ·.1)) :
    (entries.foldl (fun table (key, value) => table.insert key value) table).entries =
      table.entries ++ entries := by
  induction entries generalizing table with
  | nil => simp
  | cons entry entries ih =>
    obtain ⟨key, value⟩ := entry
    have last : ∀ other ∈ table.entries, other.1 < key := by
      intro other member
      exact (List.pairwise_append.1 sorted).2.2 other member (key, value) List.mem_cons_self
    have grown : (table.insert key value).entries = table.entries ++ [(key, value)] :=
      inserted_last last value
    rw [List.append_cons, ← grown] at sorted
    rw [List.foldl_cons, ih _ sorted, grown, List.append_assoc, List.singleton_append]

theorem eq_of_entries {table other : Dictionary α} (same : table.entries = other.entries) :
    table = other := by
  obtain ⟨entries, sorted⟩ := table
  obtain ⟨others, otherSorted⟩ := other
  obtain rfl : entries = others := same
  rfl

/-- A dictionary is made of its own entries. -/
theorem ofList_entries (table : Dictionary α) : ofList table.entries = table := by
  apply eq_of_entries
  exact entries_foldl_insert empty table.sorted

end Dictionary

end JarRemap
