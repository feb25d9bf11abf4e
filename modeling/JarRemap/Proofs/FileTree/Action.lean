import JarRemap.FileTree.Action
import JarRemap.Proofs.Edit
import JarRemap.Proofs.FileTree.Change

/-!
# What work on files changes

The same for the actions of a program, which may also fail: an archive appears under its path when
it is finished, and until then only directories do.
-/

namespace JarRemap

open FileTree

namespace FileAction

@[simp] theorem ran_read {α : Type} (look : FileTree → Except Failure α) (before : FileTree) :
    ran (read look) before = (look before, before) := rfl

@[simp] theorem gives_read_iff {α : Type} (look : FileTree → Except Failure α) (before : FileTree)
    (value : α) (after : FileTree) :
    Gives (read look) before value after ↔ look before = .ok value ∧ after = before := by
  rw [Gives, ran_read, Prod.mk.injEq, eq_comm (a := after)]

theorem ends_read {α : Type} (look : FileTree → Except Failure α) (before : FileTree)
    {fails : FileTree → Prop} (unchanged : fails before) :
    Ends (read look) before (fun value after => look before = .ok value ∧ after = before) fails := by
  rw [Ends, ran_read]
  cases look before with
  | error failure => exact unchanged
  | ok value => exact ⟨rfl, rfl⟩

theorem ends_lift {α : Type} (outcome : Except Failure α) (before : FileTree)
    {fails : FileTree → Prop} (unchanged : fails before) :
    Ends (liftM outcome : FileAction α) before
      (fun value after => outcome = .ok value ∧ after = before) fails := by
  rw [Ends, ran_lift]
  cases outcome with
  | error failure => exact unchanged
  | ok value => exact ⟨rfl, rfl⟩

theorem ends_adapt {α : Type} {wrap : Failure → Failure} {action : FileAction α}
    {before : FileTree} {succeeds : α → FileTree → Prop} {fails : FileTree → Prop}
    (ends : Ends action before succeeds fails) :
    Ends (ExceptT.adapt wrap action) before succeeds fails := by
  have runs : ran (ExceptT.adapt wrap action) before =
      ((ran action before).1.mapError wrap, (ran action before).2) := rfl
  rw [Ends] at ends ⊢
  rw [runs]
  generalize ran action before = outcome at ends
  obtain ⟨_ | _, after⟩ := outcome <;> exact ends

theorem ran_change (path : Path) (step : FileTree → Except FileFault FileTree) (before : FileTree) :
    ran (change path step) before =
      match step before with
      | .ok changed => (.ok (), changed)
      | .error fault => (.error (.file path.text fault), before) := rfl

theorem ends_change (path : Path) (step : FileTree → Except FileFault FileTree)
    (before : FileTree) {fails : FileTree → Prop} (unchanged : fails before) :
    Ends (change path step) before (fun _ after => step before = .ok after) fails := by
  rw [Ends, ran_change]
  cases step before with
  | error fault => exact unchanged
  | ok changed => rfl

theorem ends_writeText (path : Path) (text : String) (before : FileTree)
    {fails : FileTree → Prop} (unchanged : fails before) :
    Ends (writeText path text) before
      (fun _ after => Confined {placeOf before.here path} before after ∧
        after.fileAt? (placeOf before.here path) = some (.bytes text.toUTF8.toList)) fails :=
  (ends_change path _ before unchanged).mono (fun _ _ written => write_ok written) fun _ => id

theorem ends_makeAll (path : Path) (before : FileTree) :
    Ends (makeAll path) before (fun _ after => after = (before.makeAll path).1)
      (· = (before.makeAll path).1) := by
  have runs : ran (makeAll path) before =
      ((before.makeAll path).2.mapError (.file path.text), (before.makeAll path).1) := rfl
  rw [Ends, runs]
  cases (before.makeAll path).2 <;> rfl

end FileAction

namespace ArchiveDraft

theorem entries_foldl_add (draft : ArchiveDraft) (entries : List ArchiveEntry) :
    entries.foldl add draft = ⟨draft.destination, entries.reverse ++ draft.entries⟩ := by
  induction entries generalizing draft with
  | nil => rfl
  | cons entry entries ih => rw [List.foldl_cons, ih, add, List.reverse_cons, List.append_assoc]; rfl

/-- What is there when an archive is started: the directories that it needs. -/
def prepared (destination : Path) (before : FileTree) : FileTree :=
  (before.makeAll (directoryOf destination)).1

theorem prepared_confined (destination : Path) (before : FileTree) :
    Confined ∅ before (prepared destination before) :=
  before.makeAll_confined _

/-- Nothing appears where the archive is going to be. -/
theorem find?_prepared {destination : Path} {before : FileTree} (rooted : before.Rooted)
    (passable : before.Passable destination) :
    (prepared destination before).find? (placeOf before.here destination) =
      before.find? (placeOf before.here destination) := by
  rw [prepared, directoryOf]
  split
  next parent above =>
    split
    · rw [rooted.makeAll_here]
    next given =>
      exact find?_of_makeDirectories rooted passable (onWay_parent above (by simpa using given)) _
  · rw [rooted.makeAll_here]

theorem ends_start (destination : Path) (before : FileTree) :
    Ends (start destination) before
      (fun draft after => draft = ⟨destination, []⟩ ∧ after = prepared destination before)
      (· = prepared destination before) :=
  (FileAction.ends_makeAll (directoryOf destination) before).bind fun _ _ made => ⟨rfl, made⟩

theorem ends_finish (draft : ArchiveDraft) (before : FileTree) {fails : FileTree → Prop}
    (unchanged : fails before) :
    Ends (finish draft) before
      (fun _ after => (draft.destination.endsInName ∧ draft.destination.namesDirectory = false) ∧
        Confined {placeOf before.here draft.destination} before after ∧
        after.read draft.destination = .ok (.archive draft.entries.reverse)) fails :=
  (FileAction.ends_change draft.destination _ before unchanged).mono
    (fun _ _ moved => moveTo_ok moved) fun _ => id

/-- An archive is published with the entries that were worked out for it, under a name of its own, or
nothing appears but the directories for it. -/
theorem ends_publish {α : Type} (destination : Path) (work : Except Failure (List ArchiveEntry × α))
    (before : FileTree) :
    Ends (publish destination work) before
      (fun value after => (destination.endsInName ∧ destination.namesDirectory = false) ∧
        Confined {placeOf before.here destination} before after ∧
        ∃ entries, work = .ok (entries, value) ∧
          after.read destination = .ok (.archive entries))
      (· = prepared destination before) := by
  have made := prepared_confined destination before
  refine (ends_start destination before).bind ?_
  rintro _ _ ⟨rfl, rfl⟩
  -- By then the directories are there, and they stay if the work or the last step fails.
  have works : Ends (liftM work) (prepared destination before) _ (· = prepared destination before) :=
    FileAction.ends_lift work _ rfl
  refine works.bind ?_
  rintro ⟨entries, value⟩ _ ⟨worked, rfl⟩
  have added := entries_foldl_add ⟨destination, []⟩ entries
  rw [List.append_nil] at added
  have finishes (draft : ArchiveDraft) :
      Ends (finish draft) (prepared destination before) _ (· = prepared destination before) :=
    ends_finish draft _ rfl
  refine (finishes _).bind fun _ after finished => ?_
  rw [added, List.reverse_reverse, made.here] at finished
  obtain ⟨named, moved, there⟩ := finished
  exact ⟨named, IsTrans.trans _ _ _ (made.mono (Set.empty_subset _)) moved, entries, worked, there⟩

end ArchiveDraft

end JarRemap
