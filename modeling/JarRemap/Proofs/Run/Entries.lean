import JarRemap.Proofs.Run.Files
import JarRemap.Proofs.Stage.Entries

/-!
# What a run makes of the entries

All stages of a run together give one entry for each entry of the archive, in the same order. An entry
that is not for a class comes out as it was. One for a class keeps its time, and follows the name of
its class if it was called after it.
-/

namespace JarRemap

open ArchiveEntry FileTree
open StageStats (CountsFor)

theorem FileTree.read_of_archiveAt {tree : FileTree} {path : Path} {entries : List ArchiveEntry}
    (read : tree.archiveAt path = .ok entries) : ∃ content, tree.read path = .ok content := by
  obtain ⟨archive, opened, -⟩ := (bind_ok_iff _ _ _).mp read
  rw [openAt] at opened
  split at opened
  · cases opened
  next place content located => exact ⟨content, (read_ok_iff _ _ _).mpr ⟨place, located⟩⟩
  · cases opened

theorem FileTree.archiveAt_of_read {tree : FileTree} {path : Path} {entries : List ArchiveEntry}
    (read : tree.read path = .ok (.archive entries)) :
    tree.archiveAt path = .ok (entries.map ArchiveEntry.stored) := by
  obtain ⟨place, located⟩ := (read_ok_iff _ _ _).mp read
  have opened : tree.openAt path = .ok (.ofEntries (entries.map ArchiveEntry.stored)) := by
    rw [openAt, located]
    simp [FileContent.entries?, OpenArchive.ofEntries, Except.mapError, Function.comp_def]
  rw [archiveAt, opened]
  change OpenArchive.entries _ = _
  rw [OpenArchive.entries, OpenArchive.forEntries, OpenArchive.ofEntries, List.mapM_map]
  exact (mapM_ok_iff _ _ _).mpr (List.forall₂_same.mpr fun _ _ => rfl)

namespace Run

variable {config : RunConfig} {tree : FileTree}

/-- The stage that renames reads the archive, and its entries are tidy. -/
theorem forwarded_of_plan {plan : Plan} (planned : Run.plan config tree = .ok plan) :
    ∃ entries, tree.archiveAt config.input = .ok entries ∧
      List.Forall₂ Forwarded entries plan.entries ∧
      CountsFor Stage.Remap.name (!·.isClass) entries plan.remapStats := by
  simp only [Run.plan, bind_ok_iff, pure_ok_iff] at planned
  obtain ⟨sources, -, ⟨output, stats, rules⟩, remapped, _, -, _, -, rfl⟩ := planned
  obtain ⟨entries, given, remapped⟩ := (bind_ok_iff _ _ _).mp remapped
  split at remapped
  next runs =>
    obtain ⟨rfl, rfl, rfl⟩ := (pure_ok_iff _ _).mp remapped
    obtain ⟨forwarded, counts⟩ := Stage.Remap.forwarded runs
    have tidy := tidy_of_forwarded forwarded (tidy_archiveAt given)
    exact ⟨entries, given, (map_stored tidy).symm ▸ forwarded, counts⟩
  · cases remapped

/-- The last stages give no new names, and keep the entries tidy. -/
theorem forwarded_of_packed {plan : Plan} {entries archive : List ArchiveEntry}
    {stages : List StageStats} (tidy : ∀ entry ∈ entries, entry.Tidy)
    (forwarded : List.Forall₂ Forwarded entries plan.entries)
    (packs : packed .attributes config plan = .ok (archive, stages)) :
    List.Forall₂ Forwarded entries archive ∧ ∃ inject strips, stages = inject :: strips ∧
      CountsFor Stage.Inject.name (!·.isClass) entries inject ∧
      strips.length = config.stripsSynthetics.toNat ∧
      ∀ strip ∈ strips,
        CountsFor Stage.Strip.name (fun entry => entry.isMetadata || !entry.isClass) archive strip := by
  obtain ⟨⟨injected, inject⟩, injects, packs⟩ := (bind_ok_iff _ _ _).mp packs
  obtain ⟨rewritten, counts⟩ := Stage.Inject.rewritten ((mapError_ok_iff _ _ _).mp injects)
  have forwarded' := forwarded_rewritten forwarded rewritten
  have counts' : CountsFor Stage.Inject.name (!·.isClass) entries inject :=
    counts.along forwarded.flip fun forwarded => by rw [forwarded.isClass]
  -- The last stage reads what was stored, which is the same for tidy entries.
  have tidied := map_stored (tidy_of_forwarded forwarded' tidy)
  cases strips : config.stripsSynthetics with
  | false =>
    simp only [strips, Bool.false_eq_true, if_false, pure_ok_iff, Prod.mk.injEq] at packs
    obtain ⟨rfl, rfl⟩ := packs
    exact ⟨forwarded', inject, [], rfl, counts', rfl, by simp⟩
  | true =>
    simp only [strips, if_true, tidied] at packs
    obtain ⟨⟨stripped, strip⟩, runs, packs⟩ := (bind_ok_iff _ _ _).mp packs
    obtain ⟨rfl, rfl⟩ := Prod.mk.inj (Except.ok.inj packs)
    obtain ⟨rewritten', stripCounts⟩ := Stage.Strip.rewritten runs
    refine ⟨forwarded_rewritten forwarded' rewritten', inject, [strip], rfl,
      counts', rfl, ?_⟩
    rw [List.forall_mem_singleton]
    exact stripCounts.along rewritten' fun rewritten => by
      rw [rewritten.isClass, rewritten.isMetadata]

/-- A run that makes its result makes it entry by entry of what it reads, in the same order. What is not
for a class comes out as it was. A class keeps its time, and its entry is called as before or follows
the name of the class. Every stage counts all entries as read, and as copied those that it does not
look into. -/
theorem run_forwards_entries {before after : FileTree} {report : RunReport}
    (gives : Gives (run config) before report after) (fresh : report.fromCache = false) :
    ∃ entries archive remap inject strips,
      before.archiveAt config.input = .ok entries ∧ after.archiveAt config.output = .ok archive ∧
      List.Forall₂ Forwarded entries archive ∧ report.stages = remap :: inject :: strips ∧
      CountsFor Stage.Remap.name (!·.isClass) entries remap ∧
      CountsFor Stage.Inject.name (!·.isClass) entries inject ∧
      strips.length = config.stripsSynthetics.toNat ∧
      ∀ strip ∈ strips,
        CountsFor Stage.Strip.name (fun entry => entry.isMetadata || !entry.isClass) archive strip := by
  obtain ⟨cached, -⟩ | ⟨cleared, fingerprint, built, archive, invalidated, finished, stored⟩ :=
    gives_cases gives
  · cases fresh.symm.trans cached
  obtain ⟨plan, stages, planned, packs, told⟩ := finished.made
  obtain ⟨entries, given, forwarded, counts⟩ := forwarded_of_plan planned
  have tidy := tidy_archiveAt given
  obtain ⟨forwarded', inject, strips, rfl, rest⟩ := forwarded_of_packed tidy forwarded packs
  -- The archive that was read was there before, and the one that was made still is.
  obtain ⟨content, held⟩ := read_of_archiveAt given
  have same : SameArchive cleared before config.input :=
    ⟨content, content, held, invalidated.reads held, rfl⟩
  have readAfter : after.read config.output = .ok (.archive archive) := by
    refine stored.confined.read finished.read ?_
    rw [finished.here, invalidated.changes.here]
    exact fun same => finished.named.print_ne_output before.here same.symm
  have made := archiveAt_of_read readAfter
  rw [map_stored (tidy_of_forwarded forwarded' tidy)] at made
  exact ⟨entries, archive, plan.remapStats, inject, strips, same.archiveAt.trans given, made, forwarded', told, counts,
    rest⟩

/-- A class twice, once where only the last stage copies it; a text; and a directory. -/
def mixedEntries : List ArchiveEntry :=
  let file : ClassFile :=
    ⟨0, 52, .ofEntries [.unusable, .utf8 "A", .classRef 1], ⟨0⟩, 2, 0, [], [], [], []⟩
  let data := file.encode.toOption.getD []
  [⟨"A.class", data, false, .epoch⟩, ⟨"notes", [0x2E], false, .epoch⟩,
    ⟨"META-INF/A.class", data, false, .epoch⟩, ⟨"d/", [], true, .epoch⟩]

def mixedTree : FileTree :=
  ⟨[(["in.jar"], .file (.archive mixedEntries)),
    (["m.srg"], .file (.bytes "CL: A X".toUTF8.toList))], []⟩

def mixedRun : RunConfig :=
  { input := ⟨"in.jar"⟩, mapping := ⟨"m.srg"⟩, cleanOutput := ⟨"o"⟩, stripsSynthetics := true,
    usesCache := false }

theorem run_forwards_entries_mixed :
    ∃ report after, Gives (run mixedRun) mixedTree report after ∧ report.fromCache = false ∧
      ∃ entries archive, mixedTree.archiveAt mixedRun.input = .ok entries ∧
        after.archiveAt mixedRun.output = .ok archive ∧ List.Forall₂ Forwarded entries archive ∧
        archive.map (·.name) = ["X.class", "notes", "META-INF/A.class", "d/"] ∧
        report.stages.map (·.entriesCopied) = [2, 2, 3] := by
  obtain ⟨report, succeeds, fresh, copied⟩ : ∃ report, (ran (run mixedRun) mixedTree).1 = .ok report ∧
      report.fromCache = false ∧ report.stages.map (·.entriesCopied) = [2, 2, 3] := by
    have told : ((ran (run mixedRun) mixedTree).1.toOption.map fun report =>
        (report.fromCache, report.stages.map (·.entriesCopied))) = some (false, [2, 2, 3]) := by
      decide +kernel
    obtain ⟨report, succeeds, same⟩ := (toOption_map_eq_some_iff _ _ _).mp told
    obtain ⟨fresh, copied⟩ := Prod.mk.inj same
    exact ⟨report, succeeds, fresh, copied⟩
  have gives : Gives (run mixedRun) mixedTree report (ran (run mixedRun) mixedTree).2 :=
    Prod.ext succeeds rfl
  obtain ⟨entries, archive, _, _, _, given, made, forwarded, -⟩ := run_forwards_entries gives fresh
  have names : (((ran (run mixedRun) mixedTree).2.archiveAt mixedRun.output).toOption.map
      (List.map ArchiveEntry.name)) = some ["X.class", "notes", "META-INF/A.class", "d/"] := by
    decide +kernel
  rw [made] at names
  exact ⟨report, _, gives, fresh, entries, archive, given, made, forwarded, Option.some.inj names, copied⟩

end Run

end JarRemap
