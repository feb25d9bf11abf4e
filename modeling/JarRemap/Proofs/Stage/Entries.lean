import JarRemap.Proofs.Archive.Stored
import JarRemap.Proofs.ClassFile.Written
import JarRemap.Proofs.Stage.Remap
import JarRemap.Proofs.Structure.Names
import JarRemap.Stage.Inject
import JarRemap.Stage.Strip

/-!
# Entries on their way through the stages

Every stage makes one entry of each entry and keeps them in order. What it does not decode it copies,
and counts. The name of an entry is changed by the first stage only, and only if it was made of the
name of the class.
-/

namespace JarRemap

open ClassFile
open Failure (ofFault_ok_iff)
open Stage.Remap (definedClass? definedClass?_of_read)

namespace ArchiveEntry

/-- What the stages may make of an entry: nothing else, unless it is for a class. An entry for a class
keeps its time. It is called as before, or after its class if it was called after its class before. -/
structure Forwarded (old new : ArchiveEntry) : Prop where
  copied : old.isClass = false → new = old
  modified : new.modified = old.modified
  isDirectory : new.isDirectory = old.isDirectory
  named : old.isClass = true → ∃ before after, definedClass? old = some before ∧
    definedClass? new = some after ∧
    new.name = if old.name = before ++ classSuffix then after ++ classSuffix else old.name

/-- What a stage may make of an entry that gives no new names. -/
structure Rewritten (old new : ArchiveEntry) : Prop where
  copied : old.isClass = false → new = old
  name : new.name = old.name
  isDirectory : new.isDirectory = old.isDirectory
  modified : new.modified = old.modified
  defines : definedClass? new = definedClass? old

theorem rewritten_self (entry : ArchiveEntry) : Rewritten entry entry :=
  ⟨fun _ => rfl, rfl, rfl, rfl, rfl⟩

variable {old middle new : ArchiveEntry}

theorem Rewritten.isClass (rewritten : Rewritten old new) : new.isClass = old.isClass := by
  rw [ArchiveEntry.isClass, ArchiveEntry.isClass, rewritten.name, rewritten.isDirectory]

theorem Rewritten.isMetadata (rewritten : Rewritten old new) : new.isMetadata = old.isMetadata := by
  rw [ArchiveEntry.isMetadata, ArchiveEntry.isMetadata, rewritten.name]

/-- An entry that is called after a class is for a class. -/
theorem isClass_of_name (isClass : old.isClass = true) (isDirectory : new.isDirectory = old.isDirectory)
    {before after : String}
    (name : new.name = if old.name = before ++ classSuffix then after ++ classSuffix else old.name) :
    new.isClass = true := by
  rw [ArchiveEntry.isClass, Bool.and_eq_true] at isClass ⊢
  refine ⟨by rw [isDirectory]; exact isClass.1, ?_⟩
  rw [name]
  split
  · exact (isClassName_iff _).mpr ⟨after, rfl⟩
  · exact isClass.2

theorem Forwarded.isClass (forwarded : Forwarded old new) : new.isClass = old.isClass := by
  cases kind : old.isClass with
  | false => rw [forwarded.copied kind, kind]
  | true =>
    obtain ⟨_, _, -, -, name⟩ := forwarded.named kind
    exact isClass_of_name kind forwarded.isDirectory name

theorem Forwarded.rewritten (forwarded : Forwarded old middle) (rewritten : Rewritten middle new) :
    Forwarded old new where
  copied kind := (rewritten.copied (forwarded.isClass.trans kind)).trans (forwarded.copied kind)
  modified := rewritten.modified.trans forwarded.modified
  isDirectory := rewritten.isDirectory.trans forwarded.isDirectory
  named kind := by
    rw [rewritten.name, rewritten.defines]
    exact forwarded.named kind

/-- Stages leave nothing to be tidied up when the archive is stored. -/
theorem Forwarded.tidy (forwarded : Forwarded old new) (tidy : old.Tidy) : new.Tidy := by
  -- What is made of a class still has a name that ends like that of a class, and no directory has.
  cases kind : old.isClass with
  | false => rwa [forwarded.copied kind]
  | true =>
    have kind' := forwarded.isClass.trans kind
    rw [ArchiveEntry.isClass, Bool.and_eq_true, Bool.not_eq_true'] at kind'
    obtain ⟨file, isClass⟩ := kind'
    refine (tidy_iff new).mpr ⟨?_, fun directory => ?_, ?_⟩
    · rw [isDirectoryName_of_isClassName isClass, file]
    · cases file.symm.trans directory
    · rw [forwarded.modified]
      exact ((tidy_iff old).mp tidy).2.2

theorem forwarded_rewritten {entries middle output : List ArchiveEntry}
    (forwarded : List.Forall₂ Forwarded entries middle) (rewritten : List.Forall₂ Rewritten middle output) :
    List.Forall₂ Forwarded entries output :=
  forall₂_trans (fun _ _ _ first second => first.rewritten second) forwarded rewritten

theorem tidy_of_forwarded {entries output : List ArchiveEntry}
    (forwarded : List.Forall₂ Forwarded entries output) (tidy : ∀ entry ∈ entries, entry.Tidy) :
    ∀ entry ∈ output, entry.Tidy := by
  induction forwarded with
  | nil => exact tidy
  | cons head _ ih =>
    rw [List.forall_mem_cons] at tidy ⊢
    exact ⟨head.tidy tidy.1, ih tidy.2⟩

end ArchiveEntry

open ArchiveEntry

/-! ## Counting -/

/-- The stage has read all these entries and copied those among them that it was to copy. -/
structure StageStats.CountsFor (stage : String) (copies : ArchiveEntry → Bool)
    (entries : List ArchiveEntry) (stats : StageStats) : Prop where
  stage : stats.stage = stage
  entriesRead : stats.entriesRead = entries.length
  entriesCopied : stats.entriesCopied = entries.countP copies

/-- What is counted in entries is there in entries that are related to them. -/
theorem StageStats.CountsFor.along {related : ArchiveEntry → ArchiveEntry → Prop}
    {copies : ArchiveEntry → Bool} {entries others : List ArchiveEntry} {stage : String}
    {stats : StageStats} (counts : StageStats.CountsFor stage copies entries stats)
    (pairs : List.Forall₂ related entries others)
    (same : ∀ {old new}, related old new → copies new = copies old) :
    StageStats.CountsFor stage copies others stats := by
  refine ⟨counts.stage, counts.entriesRead.trans pairs.length_eq, counts.entriesCopied.trans ?_⟩
  exact (countP_congr (pairs.imp fun _ _ => same)).symm

/-- What is known of each entry is known of the whole stage. -/
theorem Staged.counted_entries {related : ArchiveEntry → ArchiveEntry → Prop}
    {copies : ArchiveEntry → Bool} {entries : List ArchiveEntry} {staged : Staged}
    (each : List.Forall₂ (fun (entry : ArchiveEntry) (made : ArchiveEntry × EntryFate) =>
      related entry made.1 ∧ (made.2 = .copied ↔ copies entry = true)) entries staged)
    (stage : String) :
    List.Forall₂ related entries (staged.counted stage).1 ∧
      StageStats.CountsFor stage copies entries (staged.counted stage).2 := by
  refine ⟨List.forall₂_map_right_iff.mpr (each.imp fun _ _ => And.left), rfl, ?_, ?_⟩
  · exact (List.length_map _).trans each.length_eq.symm
  · change (staged.map Prod.snd).count .copied = _
    rw [List.count, List.countP_map]
    exact countP_congr (each.imp fun _ _ known => Bool.eq_iff_iff.mpr (by simpa using known.2))

/-! ## The stage that renames -/

namespace Stage.Remap

private theorem writable_of_ofEdit {symbols : SymbolMap} {before after : Workbench} {changed : Bool}
    (gives : Gives (ClassWork.ofEdit (JarRemap.Remap.remapClass symbols)) before changed after)
    (writable : before.tracked.current.Writable) :
    after.tracked.first = before.tracked.first ∧ after.tracked.current.Writable := by
  have runs : ran (ClassWork.ofEdit (JarRemap.Remap.remapClass symbols)) before =
      ((ran (JarRemap.Remap.remapClass symbols) before.tracked.current).1,
        { before with tracked := { before.tracked with
            current := (ran (JarRemap.Remap.remapClass symbols) before.tracked.current).2 } }) := rfl
  rw [Gives, runs, Prod.mk.injEq] at gives
  obtain ⟨outcome, rfl⟩ := gives
  have renames : Gives (JarRemap.Remap.remapClass symbols) before.tracked.current changed _ :=
    Prod.ext outcome rfl
  exact ⟨rfl, JarRemap.Remap.writable_of_remapClass writable renames⟩

private theorem writable_of_applyRules {before after : Workbench} {changed : Bool}
    (gives : Gives ClassWork.applyRules before changed after)
    (writable : before.tracked.current.Writable) :
    after.tracked.first = before.tracked.first ∧ after.tracked.current.Writable := by
  rw [Gives, ClassWork.applyRules, ran_mk] at gives
  split at gives
  next rules opened again applied =>
    obtain rfl := (Prod.mk.inj gives).2
    obtain ⟨first, unrenamed⟩ := RuleSet.unrenamed_of_applyTo applied
    exact ⟨first, unrenamed.writable writable⟩
  · cases (Prod.mk.inj gives).1

/-- What becomes of a class can be written and read, and its first names are remembered. -/
theorem writable_of_remapClass {symbols : SymbolMap} {tracked renamed : TrackedClass} {again : Bool}
    {rules after : RuleSet} (gives : Gives (remapClass symbols tracked) rules (renamed, again) after)
    (writable : tracked.current.Writable) :
    renamed.first = tracked.first ∧ renamed.current.Writable := by
  rw [Gives, remapClass, ran_mk] at gives
  split at gives
  next changed bench runs =>
    obtain ⟨rfl, -⟩ := Prod.mk.inj (Except.ok.inj (Prod.mk.inj gives).1)
    have works : Gives (Transform.applyAll symbols [.remap, .access]) ⟨tracked, rules⟩ changed bench :=
      runs
    simp only [Transform.applyAll, Transform.apply, gives_bind_iff, gives_pure_iff] at works
    obtain ⟨_, middle, renames, _, _, ⟨_, last, opens, _, _, ⟨-, rfl⟩, -, rfl⟩, -, rfl⟩ := works
    obtain ⟨first, writable⟩ := writable_of_ofEdit renames writable
    obtain ⟨first', writable⟩ := writable_of_applyRules opens writable
    exact ⟨first'.trans first, writable⟩
  · cases (Prod.mk.inj gives).1

/-- The entry is called after the class if it was called so when it was loaded. -/
theorem forwarded_of_remapEntry {symbols : SymbolMap} {rules after : RuleSet}
    {entry made : ArchiveEntry} {fate : EntryFate} {item : Loaded} (loads : load entry = .ok item)
    (gives : Gives (remapEntry symbols item) rules (made, fate) after) :
    Forwarded entry made ∧ (fate = .copied ↔ (!entry.isClass) = true) := by
  obtain ⟨other, rfl⟩ | ⟨isClass, file, first, decoded, named, rfl⟩ := load_cases loads
  · obtain ⟨same, -⟩ := (gives_pure_iff _ _ _ _).mp gives
    obtain ⟨rfl, rfl⟩ := Prod.mk.inj same
    refine ⟨⟨fun _ => rfl, rfl, rfl, fun isClass => ?_⟩, by simp [other]⟩
    cases other.symm.trans isClass
  · simp only [remapEntry, gives_bind_iff, gives_lift_iff, gives_pure_iff] at gives
    obtain ⟨⟨renamed, again⟩, middle, remaps, writing, _, ⟨writes, rfl⟩, same, rfl⟩ := gives
    obtain ⟨rfl, rfl⟩ := Prod.mk.inj same
    obtain ⟨remembered, writable⟩ := writable_of_remapClass remaps (writable_decoded decoded)
    simp only [written, bind_ok_iff, pure_ok_iff, ofFault_ok_iff] at writes
    obtain ⟨data, encoded, name, called, rfl⟩ := writes
    obtain ⟨read, decoded', same⟩ := writable.read_again encoded
    obtain ⟨newName, (found : renamed.current.name = .ok newName)⟩ := writable.resolves.name
    -- Whether the entry follows its class is decided by the name that the class was loaded with.
    have called : name = if entry.name = first.name ++ classSuffix then newName ++ classSuffix
        else entry.name := by
      rw [entryName, remembered, found] at called
      split at called
      next moved => rw [if_pos moved, Except.ok.inj called]
      next stays => rw [if_neg stays, Except.ok.inj called]
    have isClass' : ({ entry with name := name, data := data } : ArchiveEntry).isClass = true :=
      isClass_of_name isClass rfl called
    refine ⟨⟨fun other => ?_, rfl, rfl, fun _ => ⟨first.name, newName,
      definedClass?_of_read isClass decoded named,
      definedClass?_of_read isClass' decoded' (same.trans found), called⟩⟩, ?_⟩
    · cases isClass.symm.trans other
    · cases again <;> simp [EntryFate.ofChange, isClass]

theorem forwarded {table : MappingTable} {entries output : List ArchiveEntry} {rules after : RuleSet}
    {stats : StageStats} (gives : Gives (run table entries) rules (output, stats) after) :
    List.Forall₂ Forwarded entries output ∧
      StageStats.CountsFor name (!·.isClass) entries stats := by
  simp only [run, remapAll, loadAll, gives_bind_iff, gives_lift_iff, gives_pure_iff, bind_ok_iff,
    pure_ok_iff] at gives
  -- All entries are loaded before the first is renamed, so an entry is followed through both
  -- traversals.
  obtain ⟨_, _, ⟨⟨loaded, loads, hierarchy, -, rfl⟩, rfl⟩, staged, _, remaps, same, -⟩ := gives
  obtain ⟨rfl, rfl⟩ := Prod.mk.inj same
  refine Staged.counted_entries (forall₂_trans (fun entry item made loads remaps => ?_)
    ((mapM_ok_iff _ _ _).mp loads) (exists_gives_of_mapM remaps)) name
  obtain ⟨_, _, remaps⟩ := remaps
  exact forwarded_of_remapEntry loads remaps

end Stage.Remap

/-! ## Stages that give no new names -/

namespace Stage

theorem rewritten_of_changeClass {entry made : ArchiveEntry} {fate : EntryFate}
    {change : ClassFile → Except Failure (ClassFile × Bool)}
    (unrenamed : ∀ {file changed again}, change file = .ok (changed, again) → Unrenamed file changed)
    (isClass : entry.isClass = true) (changes : entry.changeClass change = .ok (made, fate)) :
    Rewritten entry made ∧ fate ≠ .copied := by
  simp only [changeClass, bind_ok_iff, pure_ok_iff, ofFault_ok_iff] at changes
  obtain ⟨file, decoded, ⟨changed, again⟩, changes, data, encoded, same⟩ := changes
  obtain ⟨rfl, rfl⟩ := Prod.mk.inj same
  have writable := writable_decoded decoded
  have kept := unrenamed changes
  obtain ⟨read, decoded', named⟩ := (kept.writable writable).read_again encoded
  refine ⟨⟨fun other => ?_, rfl, rfl, rfl, ?_⟩, by cases again <;> exact nofun⟩
  · cases isClass.symm.trans other
  · obtain ⟨name, (found : file.name = .ok name)⟩ := writable.resolves.name
    have found' : read.name = .ok name := by rw [named, kept.name writable, found]
    have isClass' : ({ entry with data := data } : ArchiveEntry).isClass = true := isClass
    rw [definedClass?_of_read isClass decoded found]
    exact definedClass?_of_read isClass' decoded' found'

theorem rewritten_of_forEntries {step : ArchiveEntry → Except Failure (ArchiveEntry × EntryFate)}
    {copies : ArchiveEntry → Bool} {stage : String}
    (each : ∀ {entry made fate}, step entry = .ok (made, fate) →
      Rewritten entry made ∧ (fate = .copied ↔ copies entry = true))
    {entries output : List ArchiveEntry} {stats : StageStats}
    (runs : Staged.counted stage <$> OpenArchive.forEntries (.ofEntries entries) step =
      .ok (output, stats)) :
    List.Forall₂ Rewritten entries output ∧ StageStats.CountsFor stage copies entries stats := by
  rw [OpenArchive.forEntries, OpenArchive.ofEntries, List.mapM_map] at runs
  change Staged.counted stage <$> entries.mapM step = _ at runs
  cases traversed : entries.mapM step with
  | error failure =>
    rw [traversed] at runs
    cases runs
  | ok staged =>
    rw [traversed] at runs
    have known := Staged.counted_entries
      (((mapM_ok_iff _ _ _).mp traversed).imp fun _ _ made => each made) stage
    rwa [Except.ok.inj runs] at known

theorem Inject.rewritten {table : StructureTable} {generates : Bool} {entries output : List ArchiveEntry}
    {stats : StageStats} (runs : Inject.run table generates (.ofEntries entries) = .ok (output, stats)) :
    List.Forall₂ Rewritten entries output ∧
      StageStats.CountsFor Inject.name (!·.isClass) entries stats := by
  refine rewritten_of_forEntries (fun {entry made fate} injects => ?_) runs
  rw [injectEntry] at injects
  split at injects
  next isClass =>
    -- Injecting may add to a class, but it leaves its name and the names of its members alone.
    have injected {file changed : ClassFile} {again : Bool}
        (injects : injectClass table generates file = .ok (changed, again)) :
        Unrenamed file changed := by
      obtain ⟨className, -, injects⟩ := (bind_ok_iff _ _ _).mp injects
      have moved : Unrenamed file _ :=
        Injection.moves_inject (table.get? className) generates file
      rw [ran] at moved
      split at injects
      next gives =>
        obtain ⟨rfl, -⟩ := Prod.mk.inj (Except.ok.inj injects)
        rwa [gives] at moved
      · cases injects
    obtain ⟨rewritten, decoded⟩ := rewritten_of_changeClass injected isClass injects
    exact ⟨rewritten, by simp [decoded, isClass]⟩
  next other =>
    obtain ⟨rfl, rfl⟩ := Prod.mk.inj (Except.ok.inj injects)
    exact ⟨rewritten_self entry, by simp [other]⟩

theorem Strip.rewritten {entries output : List ArchiveEntry} {stats : StageStats}
    (runs : Strip.run (.ofEntries entries) = .ok (output, stats)) :
    List.Forall₂ Rewritten entries output ∧
      StageStats.CountsFor Strip.name (fun entry => entry.isMetadata || !entry.isClass) entries
        stats := by
  refine rewritten_of_forEntries (fun {entry made fate} strips => ?_) runs
  rw [stripEntry] at strips
  split at strips
  next copies =>
    obtain ⟨rfl, rfl⟩ := Prod.mk.inj (Except.ok.inj strips)
    exact ⟨rewritten_self entry, by simp only [copies]⟩
  next decodes =>
    obtain ⟨-, isClass⟩ : entry.isMetadata = false ∧ entry.isClass = true := by simpa using decodes
    obtain ⟨rewritten, decoded⟩ := rewritten_of_changeClass
      (fun strips => Synthetic.unrenamed_of_strip ((ofFault_ok_iff _ _).mp strips)) isClass strips
    exact ⟨rewritten, iff_of_false decoded decodes⟩

end Stage

end JarRemap
