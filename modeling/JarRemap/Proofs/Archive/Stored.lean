import JarRemap.FileTree.Action
import JarRemap.Proofs.Outcome
import Mathlib.Data.Option.Basic

/-!
# Entries as an archive gives them back

Storing an entry tidies it up: a directory gets a slash and loses its data, and a time loses its odd
second. What comes out of an archive is tidy already, and so it comes out of the next one unchanged.
-/

namespace JarRemap

namespace ArchiveEntry

/-! ## Names of classes -/

theorem isClassName_iff (name : String) :
    isClassName name ↔ ∃ front, name = front ++ classSuffix := by
  rw [isClassName, className?, Option.isSome_map, Text.before?, Option.isSome_map,
    Option.isSome_iff_exists]
  simp only [Text.after?_eq_some_iff]
  constructor
  · rintro ⟨rest, same⟩
    refine ⟨String.ofList rest.reverse, String.toList_inj.mp ?_⟩
    rw [String.toList_append, String.toList_ofList, ← List.reverse_inj, same]
    simp
  · rintro ⟨front, rfl⟩
    exact ⟨front.toList.reverse, by simp⟩

/-- The name of a class ends with a letter. -/
theorem isDirectoryName_of_isClassName {name : String} (isClass : isClassName name) :
    isDirectoryName name = false := by
  obtain ⟨front, rfl⟩ := (isClassName_iff name).mp isClass
  have last : (front ++ classSuffix).toList.getLast? = some 's' := by
    rw [String.toList_append]
    exact List.getLast?_append_of_ne_nil _ (by decide)
  rw [isDirectoryName, last]
  rfl

/-! ## Storing -/

/-- Nothing is left to be tidied up. -/
def Tidy (entry : ArchiveEntry) : Prop := entry.stored = entry

theorem tidy_iff (entry : ArchiveEntry) :
    entry.Tidy ↔ isDirectoryName entry.name = entry.isDirectory ∧
      (entry.isDirectory = true → entry.data = []) ∧ entry.modified.stored = entry.modified := by
  obtain ⟨name, data, isDirectory, modified⟩ := entry
  simp only [Tidy, stored, storedName, ArchiveEntry.mk.injEq]
  constructor
  · rintro ⟨spelled, emptied, told, even⟩
    rw [spelled] at emptied told
    rw [told] at emptied
    refine ⟨told, fun directory => ?_, even⟩
    rw [← emptied, if_pos directory]
  · rintro ⟨rfl, emptied, even⟩
    -- A directory is stored under a name with a slash at the end, which this one has already.
    have same : (if (isDirectoryName name && !isDirectoryName name) = true then name ++ "/" else name) =
        name := if_neg (by simp)
    rw [same]
    refine ⟨rfl, ?_, rfl, even⟩
    split
    next directory => exact (emptied directory).symm
    · rfl

end ArchiveEntry

theorem Timestamp.stored_stored (stamp : Timestamp) : stamp.stored.stored = stamp.stored := by
  simp [stored]

theorem ArchiveEntry.tidy_stored (entry : ArchiveEntry) : entry.stored.Tidy := by
  refine (tidy_iff _).mpr ⟨rfl, fun directory => ?_, entry.modified.stored_stored⟩
  exact if_pos directory

/-- Tidy entries are stored as they are. -/
theorem ArchiveEntry.map_stored {entries : List ArchiveEntry} (tidy : ∀ entry ∈ entries, entry.Tidy) :
    entries.map ArchiveEntry.stored = entries :=
  (List.map_congr_left tidy).trans entries.map_id

/-! ## Reading -/

namespace Container

theorem stored_timestamp (time date : Nat) : (timestamp time date).stored = timestamp time date := by
  simp [timestamp, Timestamp.stored]

theorem Header.modified_widen (header : Header) (bytes : Bytes) :
    (header.widen bytes).modified = header.modified := by
  rw [widen]
  split
  · rfl
  · dsimp only
    split
    · rfl
    · split <;> rfl

theorem Header.modified_unseal? {header opened : Header} {bytes : Bytes}
    (opens : header.unseal? bytes = some opened) : opened.modified = header.modified := by
  rw [unseal?.eq_def] at opens
  split at opens
  · simp only [Option.bind_eq_bind, Option.bind_eq_some_iff] at opens
    obtain ⟨_, -, _, -, _, -, same⟩ := opens
    obtain rfl := Option.some.inj same
    rfl
  · obtain rfl := Option.some.inj opens
    rfl

/-- Extra fields do not change the time. -/
theorem Header.modified_extend? {header extended : Header} {fields : Bytes}
    (extends_ : header.extend? fields = some extended) : extended.modified = header.modified := by
  fun_induction Header.extend? header fields generalizing extended with
  | case1 =>
    rename_i ih
    rw [ih extends_, modified_widen]
  | case2 =>
    rename_i ih
    obtain ⟨opened, opens, rest⟩ := Option.bind_eq_some_iff.mp extends_
    rw [ih opened rest, modified_unseal? opens]
  | case3 => cases extends_
  | case4 =>
    rename_i ih
    exact ih extends_
  | case5 =>
    obtain rfl := Option.some.inj extends_
    rfl

/-- What holds of all that the rest can give holds of all that the whole can. -/
theorem forall_of_bind {α β : Type} {first : Option α} {rest : α → Option β} {holds : β → Prop}
    (each : ∀ value, first = some value → ∀ result, rest value = some result → holds result) :
    ∀ result, first.bind rest = some result → holds result := fun result given =>
  let ⟨value, here, there⟩ := Option.bind_eq_some_iff.mp given
  each value here result there

theorem Header.stored_read? {image : Image} {base offset next : Nat} {header : Header}
    (read : read? image base offset = some (header, next)) :
    header.modified.stored = header.modified := by
  suffices each : ∀ found, read? image base offset = some found →
      found.1.modified.stored = found.1.modified from each _ read
  rw [read?]
  -- The time is taken from two of the fields, and only the extra fields are looked into after that.
  iterate 15 refine forall_of_bind fun _ _ => ?_
  refine forall_of_bind fun extended extends_ => ?_
  iterate 2 refine forall_of_bind fun _ _ => ?_
  rintro _ same
  obtain rfl := Option.some.inj same
  change extended.modified.stored = extended.modified
  rw [modified_extend? extends_]
  exact stored_timestamp _ _

theorem stored_headers? {image : Image} {headers : List Header} (read : headers? image = some headers) :
    ∀ header ∈ headers, header.modified.stored = header.modified := by
  obtain ⟨place, -, read⟩ := Option.bind_eq_some_iff.mp read
  have onto {base count offset : Nat} {found : List Header}
      (even : ∀ header ∈ found, header.modified.stored = header.modified)
      (read : Header.allOnto? image base found count offset = some headers) :
      ∀ header ∈ headers, header.modified.stored = header.modified := by
    -- The headers found so far have times that are kept, and so has each that is read behind them.
    induction count generalizing found offset with
    | zero =>
      obtain rfl := Option.some.inj read
      simpa using even
    | succ count ih =>
      rw [Header.allOnto?] at read
      split at read
      next header next one =>
        exact ih (List.forall_mem_cons.mpr ⟨Header.stored_read? one, even⟩) read
      · cases read
  exact onto (by simp) read

theorem tidy_entry {image : Image} {header : Header} {found : ArchiveEntry}
    (even : header.modified.stored = header.modified) (read : entry image header = .ok found) :
    found.Tidy := by
  rw [entry] at read
  split at read
  · split at read
    next directory =>
      obtain rfl := Except.ok.inj read
      exact (ArchiveEntry.tidy_iff _).mpr ⟨directory, fun _ => rfl, even⟩
    next file =>
      simp only [bind_ok_iff, pure_ok_iff] at read
      obtain ⟨_, -, data, -, rfl⟩ := read
      exact (ArchiveEntry.tidy_iff _).mpr ⟨by simpa using file, nofun, even⟩
  · cases read

end Container

theorem FileContent.tidy_entries? {content : FileContent}
    {entries : List (Except Container.EntryFault ArchiveEntry)} (read : content.entries? = some entries)
    {entry : ArchiveEntry} (member : .ok entry ∈ entries) : entry.Tidy := by
  cases content with
  | bytes data =>
    obtain ⟨headers, listed, same⟩ := Option.bind_eq_some_iff.mp read
    obtain rfl := Option.some.inj same
    obtain ⟨header, among, found⟩ := List.mem_map.mp member
    exact Container.tidy_entry (Container.stored_headers? listed header among) found
  | archive originals =>
    obtain rfl := Option.some.inj read
    obtain ⟨original, -, found⟩ := List.mem_map.mp member
    obtain rfl := Except.ok.inj found
    exact original.tidy_stored

/-- Whatever is read from an archive is tidy. -/
theorem FileTree.tidy_archiveAt {tree : FileTree} {path : Path} {entries : List ArchiveEntry}
    (read : tree.archiveAt path = .ok entries) : ∀ entry ∈ entries, entry.Tidy := by
  intro entry member
  obtain ⟨archive, opened, each⟩ := (bind_ok_iff _ _ _).mp read
  obtain ⟨position, here⟩ := List.mem_iff_getElem?.mp member
  obtain ⟨item, listed, found⟩ := forall₂_getElem? ((mapM_ok_iff _ _ _).mp each).flip here
  obtain ⟨_, rfl, same⟩ := (bind_ok_iff _ _ _).mp found
  obtain rfl := Except.ok.inj same
  -- Entries come only from a file whose content can be listed, and what is listed is tidy.
  rw [openAt] at opened
  split at opened
  · cases opened
  · split at opened
    next entries listing =>
      obtain rfl := Except.ok.inj opened
      obtain ⟨item, among, wrapped⟩ := List.mem_map.mp (List.mem_of_getElem? listed)
      obtain rfl := (mapError_ok_iff _ _ _).mp wrapped
      exact FileContent.tidy_entries? listing among
    · cases opened
  · cases opened

end JarRemap
