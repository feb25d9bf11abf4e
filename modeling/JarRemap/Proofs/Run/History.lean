import JarRemap.Proofs.Run.Files
import JarRemap.Proofs.Run.Message

/-!
# Histories of runs

Runs follow one another and files are edited between them. All along, a fingerprint is there only
beside the archive of the run that it is about, or beside nothing: it goes before the archive
changes and comes after. So a run that finds its own fingerprint finds its own result.
-/

namespace JarRemap.Run

open FileTree
open Fingerprint (inputContents message Measured)

/-! ## What happens to a tree -/

inductive Event
  | run (config : RunConfig)
  /-- Anybody may change files, until the tree looks like this. -/
  | edit (after : FileTree)

/-- The events so far, latest first. -/
abbrev History := List Event

variable (injector : Injector) (start : FileTree)

/-- The tree that an event leaves behind. -/
def Event.leaves : Event → FileTree → FileTree
  | .run config, before => (ran (runWith injector config) before).2
  | .edit after, _ => after

namespace History

/-- The tree as it is after all that happened. -/
def tree : History → FileTree
  | [] => start
  | event :: earlier => event.leaves injector (tree earlier)

/-- The archives and fingerprints of all runs. -/
def results (history : History) (here : Place) : Set Place :=
  {place | ∃ config, .run config ∈ history ∧
    (place = config.outputPlace here ∨ place = config.printPlace here)}

/-- What is put into digests along the way. -/
def messages (history : History) : Set Bytes :=
  {bytes | ∃ config earlier contents, .run config :: earlier <:+ history ∧
    (config.isClean ∧ config.usesCache) ∧
    inputContents (tree injector start earlier) config = .ok contents ∧
    bytes = message config contents}

end History

/-- An edit that leaves the results of runs alone, or removes them. -/
structure Edited (results : Set Place) (before after : FileTree) : Prop where
  here : after.here = before.here
  rooted : after.Rooted
  files : ∀ place ∈ results, after.fileAt? place = none ∨ after.fileAt? place = before.fileAt? place

open History

/-- Only runs write archives and fingerprints, and none of these is read by a run or is a descriptor
that a run emits. -/
structure Undisturbed (history : History) : Prop where
  rooted : start.Rooted
  unmarked : ∀ {config}, .run config ∈ history → start.fileAt? (config.printPlace start.here) = none
  edits : ∀ {after earlier}, .edit after :: earlier <:+ history →
    Edited (history.results start.here) (tree injector start earlier) after
  inputs : ∀ {config}, .run config ∈ history → ∀ path ∈ config.inputFiles,
    placeOf start.here path ∉ history.results start.here
  emitted : ∀ {config}, .run config ∈ history → ∀ place ∈ config.emittedPlaces start.here,
    place ∉ history.results start.here
  /-- Archives from outside are nothing but bytes, and no file is longer than a file can be. -/
  plain : ∀ {config earlier content}, .run config :: earlier <:+ history →
    (tree injector start earlier).read config.input = .ok content → content.Plain
  measured : ∀ {config earlier contents}, .run config :: earlier <:+ history →
    inputContents (tree injector start earlier) config = .ok contents → Measured contents

/-- Nor do runs get in the way of one another. -/
structure Orderly (history : History) : Prop extends Undisturbed injector start history where
  /-- No archive is where the fingerprint of another would be. -/
  parted : ∀ {config other}, .run config ∈ history → .run other ∈ history →
    config.outputPlace start.here ≠ other.printPlace start.here
  passable : ∀ {config earlier}, .run config :: earlier <:+ history →
    (tree injector start earlier).Passable config.output

/-- This run was the last to put an archive where its archive goes. -/
structure LastWrite (history earlier : History) (config : RunConfig)
    (archive : List ArchiveEntry) : Prop where
  happened : .run config :: earlier <:+ history
  publishes : Publishes injector config (tree injector start earlier) archive
  last : ∀ {other later}, .run other :: later <:+ history → .run config :: earlier <:+ later →
    other.outputPlace start.here = config.outputPlace start.here →
    ∀ archive, ¬Publishes injector other (tree injector start later) archive

variable {injector start}

theorem LastWrite.now {history : History} {config : RunConfig} {archive : List ArchiveEntry}
    (publishes : Publishes injector config (tree injector start history) archive) :
    LastWrite injector start (.run config :: history) history config archive := by
  refine ⟨List.suffix_rfl, publishes, fun later earlier _ _ => ?_⟩
  have lengths := later.length_le
  have before := earlier.length_le
  rw [List.length_cons, List.length_cons] at *
  omega

/-- A later event that writes nothing there changes nothing about that. -/
theorem LastWrite.later {history earlier : History} {config : RunConfig}
    {archive : List ArchiveEntry} (write : LastWrite injector start history earlier config archive)
    (event : Event) (silent : ∀ other, event = .run other →
      other.outputPlace start.here = config.outputPlace start.here →
      ∀ archive, ¬Publishes injector other (tree injector start history) archive) :
    LastWrite injector start (event :: history) earlier config archive := by
  refine ⟨write.happened.trans (List.suffix_cons event history), write.publishes, ?_⟩
  intro other later happened after same
  obtain now | before := List.suffix_cons_iff.mp happened
  · obtain ⟨rfl, rfl⟩ := List.cons.inj now
    exact silent other rfl same
  · exact write.last before after same

/-! ## Files along a history -/

namespace Orderly

variable {all : History} (orderly : Orderly injector start all)

include orderly

theorem print_not_emitted {config other : RunConfig} (run : .run config ∈ all)
    (otherRun : .run other ∈ all) :
    config.printPlace start.here ∉ other.emittedPlaces start.here := fun emitted =>
  orderly.emitted otherRun _ emitted ⟨config, run, .inr rfl⟩

theorem output_not_emitted {config other : RunConfig} (run : .run config ∈ all)
    (otherRun : .run other ∈ all) :
    config.outputPlace start.here ∉ other.emittedPlaces start.here := fun emitted =>
  orderly.emitted otherRun _ emitted ⟨config, run, .inl rfl⟩

/-- The working directory stays where it is, and files stand in directories. -/
theorem standing {history : History} (part : history <:+ all) :
    (tree injector start history).here = start.here ∧ (tree injector start history).Rooted := by
  -- An edit keeps both by assumption, and a run changes nothing but files.
  induction history with
  | nil => exact ⟨rfl, orderly.rooted⟩
  | cons event history ih =>
    obtain ⟨here, rooted⟩ := ih ((List.suffix_cons event history).trans part)
    cases event with
    | edit after =>
      have edited := orderly.edits part
      exact ⟨edited.here.trans here, edited.rooted⟩
    | run config =>
      have run := part.subset List.mem_cons_self
      have apart := orderly.print_not_emitted run run
      have changes := runWith_confined injector (here.symm ▸ apart)
      exact ⟨changes.here.trans here, changes.rooted rooted⟩

end Orderly

/-! ## Fingerprints along a history -/

variable (injector start)

/-- A fingerprint that is stored is the one of this run, and beside it there is no other archive. -/
structure Origin (history earlier : History) (config : RunConfig) (archive : List ArchiveEntry)
    (contents : List (Path × Bytes)) (stored : FileContent) : Prop where
  write : LastWrite injector start history earlier config archive
  reusable : config.isClean ∧ config.usesCache
  hashed : inputContents (tree injector start earlier) config = .ok contents
  stored : stored = .bytes (Bytes.hex (Sha3.digest (message config contents))).toUTF8.toList
  beside : (tree injector start history).fileAt? (config.outputPlace start.here) = none ∨
    (tree injector start history).fileAt? (config.outputPlace start.here) = some (.archive archive)

/-- A fingerprint at the place, if there is one, has an origin. -/
def Accounted (history : History) (print : Place) : Prop :=
  ∀ stored, (tree injector start history).fileAt? print = some stored →
    ∃ earlier config archive contents, config.printPlace start.here = print ∧
      Origin injector start history earlier config archive contents stored

variable {injector start}

/-- What an event has to leave alone for a fingerprint to stay accounted for. -/
theorem Accounted.later {history : History} {print : Place}
    (accounted : Accounted injector start history print) (event : Event)
    (kept : (tree injector start (event :: history)).fileAt? print = none ∨
      (tree injector start (event :: history)).fileAt? print =
        (tree injector start history).fileAt? print)
    (others : ∀ {earlier config archive}, LastWrite injector start history earlier config archive →
      config.printPlace start.here = print →
      (∀ other, event = .run other →
        other.outputPlace start.here = config.outputPlace start.here →
        ∀ archive, ¬Publishes injector other (tree injector start history) archive) ∧
      ((tree injector start (event :: history)).fileAt? (config.outputPlace start.here) = none ∨
        (tree injector start (event :: history)).fileAt? (config.outputPlace start.here) =
          (tree injector start history).fileAt? (config.outputPlace start.here))) :
    Accounted injector start (event :: history) print := by
  -- A fingerprint that is still there is the one from before, with the same origin.
  intro stored found
  obtain gone | same := kept
  · rw [gone] at found
    cases found
  rw [same] at found
  obtain ⟨earlier, config, archive, contents, place, origin⟩ := accounted stored found
  obtain ⟨silent, beside⟩ := others origin.write place
  refine ⟨earlier, config, archive, contents, place, origin.write.later event silent,
    origin.reusable, origin.hashed,
    origin.stored, ?_⟩
  obtain gone | same := beside
  · exact .inl gone
  · rw [same]
    exact origin.beside

/-- Edits do not touch fingerprints. -/
theorem Accounted.edit {history : History} {print : Place}
    (accounted : Accounted injector start history print) {after : FileTree} {results : Set Place}
    (edited : Edited results (tree injector start history) after) (inside : print ∈ results)
    (outputs : ∀ {config}, .run config ∈ history → config.outputPlace start.here ∈ results) :
    Accounted injector start (.edit after :: history) print := by
  refine accounted.later _ (edited.files print inside) fun write _ => ⟨?_, ?_⟩
  · rintro other ⟨⟩
  · exact edited.files _ (outputs (write.happened.subset List.mem_cons_self))

/-- A run that does not get to its archive leaves fingerprints alone, or removes its own. -/
theorem Accounted.untouched {history : History} {print : Place}
    (accounted : Accounted injector start history print) {config : RunConfig}
    (untouched : Untouched config (tree injector start history)
      (tree injector start (.run config :: history)))
    (silent : ∀ archive, ¬Publishes injector config (tree injector start history) archive)
    (here : (tree injector start history).here = start.here)
    (notEmitted : print ∉ config.emittedPlaces start.here)
    (outputs : ∀ {other}, .run other ∈ history →
      other.outputPlace start.here ∉ config.emittedPlaces start.here ∧
        other.outputPlace start.here ≠ config.printPlace start.here) :
    Accounted injector start (.run config :: history) print := by
  have changes := untouched.changes
  have own := untouched.print
  rw [here] at changes own
  refine accounted.later _ ?_ fun write _ => ⟨?_, .inr (changes.files _ ?_)⟩
  · by_cases place : print = config.printPlace start.here
    · rwa [place]
    · exact .inr (changes.files _ (by simp [notEmitted, place]))
  · rintro other ⟨⟩ -
    exact silent
  · have apart := outputs (write.happened.subset List.mem_cons_self)
    simp [apart]

/-- A run that makes its archive leaves the fingerprints of other archives alone. -/
theorem Accounted.elsewhere {history : History} {print : Place}
    (accounted : Accounted injector start history print) {config : RunConfig}
    (changes : Confined (config.emittedPlaces start.here ∪
        {config.printPlace start.here, config.outputPlace start.here})
      (tree injector start history) (tree injector start (.run config :: history)))
    (notEmitted : print ∉ config.emittedPlaces start.here)
    (notOwn : print ≠ config.printPlace start.here) (notOutput : print ≠ config.outputPlace start.here)
    (named : ∀ {earlier other archive}, LastWrite injector start history earlier other archive →
      other.outputPlace start.here = config.outputPlace start.here →
      other.printPlace start.here = config.printPlace start.here)
    (outputs : ∀ {other}, .run other ∈ history →
      other.outputPlace start.here ∉ config.emittedPlaces start.here ∧
        other.outputPlace start.here ≠ config.printPlace start.here) :
    Accounted injector start (.run config :: history) print := by
  refine accounted.later _ (.inr (changes.files _ (by simp [notEmitted, notOwn, notOutput])))
    fun write place => ?_
  -- Another archive has its fingerprint elsewhere, so the one that is written now is not that one.
  have other : _ ≠ config.outputPlace start.here := fun same =>
    notOwn (place.symm.trans (named write same))
  refine ⟨?_, .inr (changes.files _ ?_)⟩
  · rintro _ ⟨⟩ same
    exact absurd same.symm other
  · have apart := outputs (write.happened.subset List.mem_cons_self)
    simp [apart, other]

/-- A run that makes its archive stores its own fingerprint beside it, or leaves none there. -/
theorem accounted_own {history : History} {config : RunConfig} {fingerprint : Option String}
    {archive : List ArchiveEntry} {built : FileTree}
    (due : Due config (tree injector start history) fingerprint)
    (publishes : Publishes injector config (tree injector start history) archive)
    (cleared : built.fileAt? (config.printPlace start.here) = none) (named : config.Named)
    (placed : built.fileAt? (config.outputPlace start.here) = some (.archive archive))
    (stores : Stored config start.here fingerprint built (tree injector start (.run config :: history))) :
    Accounted injector start (.run config :: history) (config.printPlace start.here) := by
  intro stored found
  obtain same | ⟨print, given, changes, there⟩ := stores
  · rw [same, cleared] at found
    cases found
  -- The fingerprint was computed from the tree that the run has started from.
  have write := LastWrite.now publishes
  have asked := due.2.1
  rw [given] at asked
  obtain ⟨reusable, contents, hashed, rfl⟩ := contents_of_fingerprint config asked
  refine ⟨history, config, archive, contents, rfl, write, reusable, hashed,
    Option.some.inj (found.symm.trans there), .inr ?_⟩
  rw [changes.files _ (by simpa using (named.print_ne_output start.here).symm)]
  exact placed

namespace Orderly

variable {all : History} (orderly : Orderly injector start all)

include orderly

/-- Every event leaves each fingerprint accounted for. -/
theorem accounted_step {event : Event} {history : History} (part : event :: history <:+ all)
    {print : Place} (isPrint : ∃ config, .run config ∈ all ∧ config.printPlace start.here = print)
    (accounted : Accounted injector start history print) :
    Accounted injector start (event :: history) print := by
  have earlier : history <:+ all := (List.suffix_cons event history).trans part
  obtain ⟨here, rooted⟩ := orderly.standing earlier
  obtain ⟨printed, printedRun, rfl⟩ := isPrint
  cases event with
  | edit after =>
    exact accounted.edit (orderly.edits part) ⟨printed, printedRun, .inr rfl⟩ fun run =>
      ⟨_, earlier.subset run, .inl rfl⟩
  | run config =>
    have run := part.subset List.mem_cons_self
    have notEmitted := orderly.print_not_emitted printedRun run
    have outputs {other : RunConfig} (otherRun : .run other ∈ history) :
        other.outputPlace start.here ∉ config.emittedPlaces start.here ∧
          other.outputPlace start.here ≠ config.printPlace start.here :=
      ⟨orderly.output_not_emitted (earlier.subset otherRun) run,
        orderly.parted (earlier.subset otherRun) run⟩
    obtain ⟨untouched, silent⟩ | ⟨fingerprint, archive, built, due, publishes, made, stored⟩ :=
      runWith_leaves injector (here.symm ▸ orderly.print_not_emitted run run)
    · exact accounted.untouched untouched silent here notEmitted outputs
    · have cleared := made.cleared rooted (orderly.passable part)
      have changes := runWith_confined injector (here.symm ▸ orderly.print_not_emitted run run)
      have placed := made.placed
      rw [here] at cleared changes placed stored
      -- The fingerprint that is asked for may be that of the run, or that of another archive.
      by_cases own : printed.printPlace start.here = config.printPlace start.here
      · rw [own]
        exact accounted_own due publishes cleared made.named placed stored
      · refine accounted.elsewhere changes notEmitted own (orderly.parted run printedRun).symm ?_ outputs
        intro _ other archive write same
        have otherRun := earlier.subset (write.happened.subset List.mem_cons_self)
        have otherEarlier := ((List.suffix_cons _ _).trans write.happened).trans earlier
        obtain ⟨_, otherMade⟩ := write.publishes.built
          ((orderly.standing otherEarlier).1.symm ▸ orderly.print_not_emitted otherRun otherRun)
        exact made.named.printPlace_eq otherMade.named same

/-- So every fingerprint that is found along a history is accounted for. -/
theorem accounted {history : History} (part : history <:+ all) {config : RunConfig}
    (run : .run config ∈ all) :
    Accounted injector start history (config.printPlace start.here) := by
  induction history with
  | nil =>
    intro stored found
    rw [tree, orderly.unmarked run] at found
    cases found
  | cons event history ih =>
    exact orderly.accounted_step part ⟨config, run, rfl⟩ (ih ((List.suffix_cons event history).trans part))

end Orderly

end JarRemap.Run
