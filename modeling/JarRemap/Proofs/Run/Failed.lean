import JarRemap.Proofs.Access.History
import JarRemap.Proofs.Run.Files
import JarRemap.Proofs.Stage.Remap

/-!
# Runs that fail

Whatever stage of a run fails, its archive is not touched, and there is no fingerprint any more that
says it is a good one. Only when the archive is in its place, the new fingerprint may still fail to
be stored.

A run fails for broken rules exactly if there are any and they are not accepted: no later stage fails
in this way.
-/

namespace JarRemap

open FileTree

/-! ## Failures of one kind -/

/-- The edit never fails in this way. -/
def Avoids {ε σ α : Type} (fault : ε) (edit : ExceptT ε (StateM σ) α) : Prop :=
  ∀ before, (ran edit before).1 ≠ .error fault

section

variable {ε σ α β : Type} {fault : ε}

theorem avoids_lift {outcome : Except ε α} (other : outcome ≠ .error fault) :
    Avoids fault (liftM outcome : ExceptT ε (StateM σ) α) := fun before => by
  rwa [ran_lift]

theorem avoids_pure (value : α) : Avoids fault (pure value : ExceptT ε (StateM σ) α) :=
  fun _ => nofun

theorem Avoids.bind {edit : ExceptT ε (StateM σ) α} {next : α → ExceptT ε (StateM σ) β}
    (first : Avoids fault edit) (second : ∀ value, Avoids fault (next value)) :
    Avoids fault (edit >>= next) := by
  intro before
  rw [ran_bind]
  have start := first before
  split
  next value middle _ => exact second value middle
  next other middle fails =>
    rw [fails] at start
    simpa using start

theorem bind_ne_error {step : Except ε α} {next : α → Except ε β} (first : step ≠ .error fault)
    (second : ∀ value, next value ≠ .error fault) : (step >>= next) ≠ .error fault := by
  cases step with
  | error other => simpa [bind, Except.bind] using first
  | ok value => exact second value

theorem mapM_ne_error {step : α → Except ε β} (each : ∀ item, step item ≠ .error fault)
    (items : List α) : items.mapM step ≠ .error fault := by
  induction items with
  | nil => exact nofun
  | cons item items ih =>
    rw [List.mapM_cons]
    exact bind_ne_error (each item) fun _ => bind_ne_error ih fun _ => nofun

theorem mapError_ne_error {η : Type} (wrap : η → ε) (other : ∀ cause, wrap cause ≠ fault)
    (outcome : Except η α) : outcome.mapError wrap ≠ .error fault := by
  cases outcome with
  | error cause => exact fun same => other cause (Except.error.inj same)
  | ok value => exact nofun

end

namespace Run

variable {records : List RuleRecord}

theorem read_avoids {α : Type} {look : FileTree → Except Failure α}
    (other : ∀ tree, look tree ≠ .error (.brokenRules records)) :
    Avoids (.brokenRules records) (FileAction.read look) := other

theorem change_avoids (path : Path) (step : FileTree → Except FileFault FileTree) :
    Avoids (.brokenRules records) (FileAction.change path step) := by
  intro before
  rw [FileAction.ran_change]
  split <;> rintro ⟨⟩

theorem textAt_ne (tree : FileTree) (path : Path) :
    tree.textAt path ≠ .error (.brokenRules records) := by
  refine bind_ne_error ?_ fun data => ?_
  · rw [bytesAt, contentAt]
    cases tree.read path <;> rintro ⟨⟩
  · split <;> rintro ⟨⟩

theorem mergeAll_ne (rule : AccessRule) (structures : List InnerRecord) :
    (InnerRecord.mergeAll rule structures).2 ≠ .error (.brokenRules records) := by
  induction structures with
  | nil => exact nofun
  | cons structure_ structures ih =>
    rw [InnerRecord.mergeAll]
    split
    · split
      next failure refused =>
        rintro same
        obtain rfl : failure = .brokenRules records := Except.error.inj same
        -- Merging a rule fails only for what stands in the descriptor.
        rw [InnerRecord.accessFlags] at refused
        split at refused
        · cases refused
        · split at refused <;> cases refused
      · cases merged : (InnerRecord.mergeAll rule structures).2 with
        | error failure =>
          rw [merged] at ih
          simpa [merged] using ih
        | ok count => simp [merged]
    · exact ih

theorem applyRules_avoids (rules : List AccessRule) :
    Avoids (.brokenRules records) (StructureTable.applyRules rules) := by
  have merges (rule : AccessRule) (holder : String) :
      Avoids (.brokenRules records) (StructureTable.mergeUnder rule holder) := by
    intro table
    rw [StructureTable.mergeUnder, ran_mk]
    split
    · exact nofun
    · exact mergeAll_ne rule _
  induction rules with
  | nil => exact avoids_pure 0
  | cons rule rules ih =>
    -- A rule is merged under its owner, and before that under the class around it if there is one.
    have own (around : Nat) : Avoids (.brokenRules records)
        (do return around + (← StructureTable.mergeUnder rule rule.owner)) :=
      (merges rule rule.owner).bind fun _ => avoids_pure _
    have applies : Avoids (.brokenRules records) (StructureTable.applyRule rule) := by
      rw [StructureTable.applyRule]
      split
      · dsimp only
        split
        · exact (merges rule _).bind own
        · exact own 0
      · exact avoids_pure 0
    exact applies.bind fun _ => ih.bind fun _ => avoids_pure _

/-- Merging rules into a table never fails for broken ones. -/
theorem merged_ne (rules : List AccessRule) (table : StructureTable) :
    (match (StructureTable.applyRules rules).run.run table with
      | (.ok count, table) => pure (table, count)
      | (.error failure, _) => throw failure : Except Failure (StructureTable × Nat)) ≠
        .error (.brokenRules records) := by
  have avoids : Avoids (.brokenRules records) (StructureTable.applyRules rules) :=
    applyRules_avoids rules
  have applies := avoids table
  rw [ran] at applies
  split
  · rintro ⟨⟩
  next failure _ refused =>
    rw [refused] at applies
    change Except.error failure ≠ _
    simpa using applies

theorem mergedDescriptor_ne (config : RunConfig) (rules : List AccessRule) (tree : FileTree) :
    mergedDescriptor config rules tree ≠ .error (.brokenRules records) := by
  rw [mergedDescriptor]
  dsimp only
  split
  · refine bind_ne_error (bind_ne_error (textAt_ne tree _) fun text => ?_) (merged_ne rules)
    split <;> rintro ⟨⟩
  · exact merged_ne rules .empty

theorem emitDescriptor_avoids (config : RunConfig) (table : StructureTable) :
    Avoids (.brokenRules records) (emitDescriptor config table) := by
  rw [emitDescriptor]
  split
  · exact change_avoids _ _
  · exact avoids_pure ()

theorem publish_avoids {α : Type} (destination : Path) {work : Except Failure (List ArchiveEntry × α)}
    (other : work ≠ .error (.brokenRules records)) :
    Avoids (.brokenRules records) (ArchiveDraft.publish destination work) := by
  have makes (path : Path) : Avoids (.brokenRules records) (FileAction.makeAll path) := fun before => by
    change (before.makeAll path).2.mapError (Failure.file path.text) ≠ _
    exact mapError_ne_error (Failure.file path.text) (by simp) _
  refine ((makes _).bind fun _ => avoids_pure _).bind fun draft => (avoids_lift other).bind fun _ => ?_
  exact (change_avoids _ _).bind fun _ => avoids_pure _

/-- What is wrong with a class is no matter of rules. -/
theorem ofFault_ne {α : Type} (outcome : Except Fault α) :
    Failure.ofFault outcome ≠ .error (.brokenRules records) :=
  mapError_ne_error Failure.classFile (by simp) outcome

theorem changeClass_ne (entry : ArchiveEntry) {change : ClassFile → Except Failure (ClassFile × Bool)}
    (other : ∀ file, change file ≠ .error (.brokenRules records)) :
    entry.changeClass change ≠ .error (.brokenRules records) := by
  refine bind_ne_error (ofFault_ne _) fun file => bind_ne_error (other file) fun changed => ?_
  exact bind_ne_error (ofFault_ne _) fun _ => nofun

theorem strip_ne (entries : List ArchiveEntry) :
    Stage.Strip.run (.ofEntries entries) ≠ .error (.brokenRules records) := by
  have strips (entry : ArchiveEntry) : Stage.Strip.stripEntry entry ≠ .error (.brokenRules records) := by
    rw [Stage.Strip.stripEntry]
    split
    · exact nofun
    · exact changeClass_ne entry fun _ => ofFault_ne _
  have each := mapM_ne_error strips entries
  rw [Stage.Strip.run, OpenArchive.forEntries, OpenArchive.ofEntries, List.mapM_map]
  change Staged.counted Stage.Strip.name <$> entries.mapM Stage.Strip.stripEntry ≠ _
  cases stripped : entries.mapM Stage.Strip.stripEntry with
  | error failure =>
    rw [stripped] at each
    simpa using each
  | ok staged => exact nofun

private theorem ofInjector_ne (injector : String) (cause : Failure) :
    Failure.ofInjector injector cause ≠ .brokenRules records := by
  cases cause <;> exact nofun

theorem finishStages_avoids (config : RunConfig) (table : StructureTable)
    (entries : List ArchiveEntry) :
    Avoids (.brokenRules records) (finishStages .attributes config table entries) := by
  rw [finishStages]
  dsimp only
  split
  · refine (avoids_lift (mapError_ne_error _ (ofInjector_ne _) _)).bind fun injected => ?_
    exact (publish_avoids _ (strip_ne _)).bind fun _ => avoids_pure _
  · refine Avoids.bind (fun before => ?_) fun _ => avoids_pure _
    exact mapError_ne_error _ (ofInjector_ne _) _

/-! ## Broken rules -/

section

variable {config : RunConfig} {tree : FileTree} {sources : Sources} {rules : RuleSet}
  {result : List ArchiveEntry × StageStats}

/-- The stage that renames neither loads nor drops rules. -/
theorem marked_of_remapInput {entries : List ArchiveEntry} {stats : StageStats}
    (remapped : remapInput config sources tree = .ok (entries, stats, rules)) :
    ∃ keys, rules = sources.rules.marked keys := by
  rw [remapInput, bind_ok_iff] at remapped
  obtain ⟨archive, -, remapped⟩ := remapped
  split at remapped
  next entries stats after gives =>
    obtain ⟨-, -, rfl⟩ := (pure_ok_iff _ _).mp remapped
    exact Stage.Remap.marked_of_gives_run gives
  · cases remapped

open RuleSet (InLoadOrder)

theorem moves_loadLines (file : String) (lines : List String) (number loaded : Nat) :
    Moves (Preserved InLoadOrder) (RuleSet.loadLines file number loaded lines) := by
  induction lines generalizing number loaded with
  | nil => exact moves_pure loaded
  | cons line lines ih =>
    have loads : Moves (Preserved InLoadOrder) (RuleSet.loadLine line ⟨file, number⟩) :=
      fun set ordered => ordered.after (.load line ⟨file, number⟩)
    exact loads.bind fun _ => ih _ _

theorem moves_loadFile (tree : FileTree) (path : Path) :
    Moves (Preserved InLoadOrder) (RuleSet.loadFile tree path) := by
  refine (moves_lift _).bind fun source => moves_get.bind fun set => ?_
  split
  · exact moves_pure 0
  · refine (moves_modify fun _ => id).bind fun _ => (moves_lift _).bind fun text => ?_
    exact fun before => moves_loadLines source.text (Text.lines text) 1 0 before

/-- The ledger of the rules that were loaded lists them in this order. -/
theorem inLoadOrder_of_loadSources (loaded : loadSources config tree = .ok sources) :
    sources.rules.InLoadOrder := by
  simp only [loadSources, bind_ok_iff, pure_ok_iff] at loaded
  obtain ⟨table, -, names, -, rules, loads, rfl⟩ := loaded
  have moves : Moves (Preserved InLoadOrder)
      (config.ruleFiles.forM fun path => discard (RuleSet.loadFile tree path)) :=
    moves_forM fun path _ => (moves_loadFile tree path).bind fun _ => moves_pure _
  have ordered := moves (.new names) (RuleSet.inLoadOrder_new names)
  rw [RuleSet.load, Failure.stateAfter] at loads
  rw [ran] at ordered
  split at loads
  next gives =>
    obtain rfl := Except.ok.inj loads
    rwa [gives] at ordered
  · cases loads

theorem checkBroken_cases (config : RunConfig) (outcome : RuleOutcome) :
    (config.failsOnBrokenRules = true ∧ outcome.broken ≠ [] ∧
      checkBroken config outcome = .error (.brokenRules outcome.broken)) ∨
    (¬(config.failsOnBrokenRules = true ∧ outcome.broken ≠ []) ∧
      checkBroken config outcome = .ok ()) := by
  rw [checkBroken]
  split
  next refused =>
    rw [Bool.and_eq_true] at refused
    exact .inl ⟨refused.2, by simpa using refused.1, rfl⟩
  next accepted =>
    refine .inr ⟨fun ⟨fails, broken⟩ => accepted ?_, rfl⟩
    rw [Bool.and_eq_true]
    exact ⟨by simpa using broken, fails⟩

/-- When the first stage is done, broken rules are what a run fails for exactly if there are any that
are not accepted. -/
theorem brokenRules_iff {before cleared : FileTree} {fingerprint : Option String}
    (due : Due config before fingerprint)
    (invalidated : Gives (Fingerprint.invalidate config.output) before () cleared)
    (loaded : loadSources config cleared = .ok sources) {entries : List ArchiveEntry}
    {stats : StageStats} (remapped : remapInput config sources cleared = .ok (entries, stats, rules))
    (records : List RuleRecord) :
    (ran (run config) before).1 = .error (.brokenRules records) ↔
      config.failsOnBrokenRules = true ∧ records ≠ [] ∧ records = rules.ledger.outcome.broken := by
  rw [run, ran_of_due due, produce, ran_bind, invalidated]
  -- The steps up to the check are known to succeed, so the run comes down to what follows them.
  dsimp only
  rw [ran_bind, FileAction.ran_read, loaded]
  dsimp only
  rw [ran_bind, FileAction.ran_read, remapped]
  dsimp only
  rw [ran_bind, ran_lift]
  obtain ⟨fails, broken, refused⟩ | ⟨accepted, passes⟩ := checkBroken_cases config rules.ledger.outcome
  · rw [refused]
    simp only [Except.error.injEq, Failure.brokenRules.injEq, fails, true_and]
    constructor
    · rintro rfl
      exact ⟨broken, rfl⟩
    · rintro ⟨-, same⟩
      exact same.symm
  · -- What is left to do never fails for broken rules.
    rw [passes]
    have unbroken : ¬(config.failsOnBrokenRules = true ∧ records ≠ [] ∧
        records = rules.ledger.outcome.broken) := by
      rintro ⟨fails, given, rfl⟩
      exact accepted ⟨fails, given⟩
    refine iff_of_false ?_ unbroken
    refine (read_avoids (mergedDescriptor_ne config rules.rules)).bind (fun _ => ?_) cleared
    refine (emitDescriptor_avoids config _).bind fun _ =>
      (finishStages_avoids config _ _).bind fun _ => ?_
    cases fingerprint with
    | none => exact avoids_pure _
    | some print => exact (change_avoids _ _).bind fun _ => avoids_pure _

end

/-! ## What is left when a stage fails -/

variable (injector : Injector) (config : RunConfig)

/-- The archive is as it was, and there is no fingerprint for it. -/
structure Withdrawn (before after : FileTree) : Prop where
  output : after.find? (config.outputPlace before.here) =
    before.find? (config.outputPlace before.here)
  print : after.fileAt? (config.printPlace before.here) = none

variable {injector config}

/-- Emitting the descriptor and making directories leaves the archive alone. -/
theorem Invalidated.withdrawn {before cleared emitted after : FileTree}
    (invalidated : Invalidated config before cleared) (emits : Emitted config cleared emitted)
    (left : after = emitted ∨ after = ArchiveDraft.prepared config.output emitted)
    (rooted : before.Rooted) (passable : before.Passable config.output)
    (beside : config.outputPlace before.here ≠ config.printPlace before.here)
    (outputApart : config.outputPlace before.here ∉ config.emittedPlaces before.here)
    (printApart : config.printPlace before.here ∉ config.emittedPlaces before.here) :
    Withdrawn config before after := by
  obtain ⟨changes, others⟩ := emits
  rw [invalidated.changes.here] at changes others
  have kept : Withdrawn config before emitted :=
    ⟨(others _ outputApart).trans (invalidated.others _ beside),
      (changes.files _ printApart).trans (invalidated.gone rooted passable)⟩
  obtain rfl | rfl := left
  · exact kept
  · -- Where the path of the archive can be passed, no directory is made at its end.
    have made := ArchiveDraft.prepared_confined config.output emitted
    have reached := IsTrans.trans _ _ _ (invalidated.changes.mono Set.subset_union_left)
      (changes.mono Set.subset_union_right)
    have apart := ArchiveDraft.find?_prepared (reached.rooted rooted) (reached.passable passable)
    rw [reached.here] at apart
    exact ⟨apart.trans kept.output, (made.files _ (Set.notMem_empty _)).trans kept.print⟩

/-- A run that fails without having begun has changed nothing; one that has begun ends with its archive
as it was and without a fingerprint, unless it could not remove the old one or could not store the new
one. -/
theorem failed_cases {before after : FileTree} {failure : Failure} (rooted : before.Rooted)
    (passable : before.Passable config.output)
    (beside : config.outputPlace before.here ≠ config.printPlace before.here)
    (outputApart : config.outputPlace before.here ∉ config.emittedPlaces before.here)
    (printApart : config.printPlace before.here ∉ config.emittedPlaces before.here)
    (failed : ran (runWith injector config) before = (.error failure, after)) :
    (after = before ∧ ∀ fingerprint, ¬Due config before fingerprint) ∨
    (after = before ∧ ran (Fingerprint.invalidate config.output) before = (.error failure, before)) ∨
    Withdrawn config before after ∨
    ∃ print report built, Due config before (some print) ∧
      Gives (build injector config (some print)) before report built ∧
      ran (Fingerprint.store config.output print) built = (.error failure, after) := by
  obtain ⟨_, runs, never⟩ | ⟨print, -, -, runs⟩ | ⟨fingerprint, due, runs⟩ :=
    runWith_cases injector config before
  · exact .inl ⟨(congrArg Prod.snd (runs.symm.trans failed)).symm, never⟩
  · cases runs.symm.trans failed
  · refine .inr ?_
    rw [runs, produce_eq] at failed
    -- The run has failed before the archive was in its place, or else in storing the fingerprint.
    obtain stopped | ⟨report, built, builds, stores⟩ := failed_bind failed
    · have clears : Ends (Fingerprint.invalidate config.output) before _ (· = before) :=
        ends_invalidate config before rfl
      rw [build_eq] at stopped
      obtain refused | ⟨_, cleared, cleans, stopped⟩ := failed_bind stopped
      · obtain rfl := clears.failed refused
        exact .inl ⟨rfl, refused⟩
      · obtain ⟨emitted, emits, left⟩ :=
          (ends_assemble injector config fingerprint cleared).failed stopped
        exact .inr (.inl ((clears.gives cleans).withdrawn emits left rooted passable beside outputApart
          printApart))
    · cases fingerprint with
      | none => cases stores
      | some print =>
        obtain stores | ⟨_, _, -, ends⟩ := failed_bind stores
        · exact .inr (.inr ⟨print, report, built, due, builds, stores⟩)
        · cases ends

/-- A run that fails leaves what was where its archive goes, and removes the fingerprint for it once it
has something to do. For broken rules it fails exactly if they are not accepted and there are any, and
it tells them in the order in which they were loaded. -/
theorem failed_run_publishes_nothing {before : FileTree} (rooted : before.Rooted)
    (passable : before.Passable config.output)
    (beside : config.outputPlace before.here ≠ config.printPlace before.here)
    (outputApart : config.outputPlace before.here ∉ config.emittedPlaces before.here)
    (printApart : config.printPlace before.here ∉ config.emittedPlaces before.here) :
    (∀ failure after, ran (run config) before = (.error failure, after) →
      (after.find? (config.outputPlace before.here) =
          before.find? (config.outputPlace before.here) ∧
        ∀ fingerprint, Due config before fingerprint →
          after.fileAt? (config.printPlace before.here) = none ∨
            ran (Fingerprint.invalidate config.output) before = (.error failure, before)) ∨
      ∃ print report built, Due config before (some print) ∧
        Gives (build .attributes config (some print)) before report built ∧
        ran (Fingerprint.store config.output print) built = (.error failure, after)) ∧
    ∀ fingerprint cleared sources entries stats rules, Due config before fingerprint →
      Gives (Fingerprint.invalidate config.output) before () cleared →
      loadSources config cleared = .ok sources →
      remapInput config sources cleared = .ok (entries, stats, rules) →
      rules.rules = sources.rules.rules ∧
        rules.ledger.keys = (sources.rules.rules.map (·.key)).eraseDups ∧
        ∀ records, (ran (run config) before).1 = .error (.brokenRules records) ↔
          config.failsOnBrokenRules = true ∧ records ≠ [] ∧
            records = rules.ledger.records.filter (!·.effective) := by
  constructor
  · intro failure after failed
    obtain ⟨rfl, never⟩ | ⟨rfl, refused⟩ | withdrawn | stored :=
      failed_cases rooted passable beside outputApart printApart failed
    · exact .inl ⟨rfl, fun fingerprint due => absurd due (never fingerprint)⟩
    · exact .inl ⟨rfl, fun _ _ => .inr refused⟩
    · exact .inl ⟨withdrawn.output, fun _ _ => .inl withdrawn.print⟩
    · exact .inr stored
  · intro fingerprint cleared sources entries stats rules due invalidated loaded remapped
    obtain ⟨keys, rfl⟩ := marked_of_remapInput remapped
    exact ⟨rfl, (inLoadOrder_of_loadSources loaded).marked keys,
      brokenRules_iff due invalidated loaded remapped⟩

/-! ### Runs over an empty archive -/

/-- An empty archive, with a rule for a class that is not in it. Two fingerprints are left. -/
def oneRule : FileTree :=
  ⟨[(["in.jar"], .file (.archive [])), (["m.srg"], .file (.bytes [])),
    (["a.cfg"], .file (.bytes "public a.B".toUTF8.toList)), (["o.fingerprint"], .file (.bytes [])),
    (["x.fingerprint"], .file (.bytes []))], []⟩

def ruledRun : RunConfig :=
  { input := ⟨"in.jar"⟩, mapping := ⟨"m.srg"⟩, ownRules := [⟨"a.cfg"⟩], cleanOutput := ⟨"o"⟩,
    usesCache := false }

def unusedRule : RuleRecord := ⟨"a/B", "public a.B", false, ⟨"/a.cfg", 1⟩⟩

def ruledSources : Sources :=
  ⟨⟨[]⟩, ⟨.empty, [⟨.pub, .keep, "a/B", none⟩], ⟨[unusedRule]⟩, ["/a.cfg"]⟩⟩

theorem failed_run_publishes_nothing_unusedRule :
    oneRule.Rooted ∧ oneRule.Passable ruledRun.output ∧
      ruledRun.outputPlace [] ≠ ruledRun.printPlace [] ∧
      ruledRun.outputPlace [] ∉ ruledRun.emittedPlaces [] ∧
      ruledRun.printPlace [] ∉ ruledRun.emittedPlaces [] ∧
      (oneRule.fileAt? (ruledRun.printPlace [])).isSome ∧
      ∃ after, ran (run ruledRun) oneRule = (.error (.brokenRules [unusedRule]), after) ∧
        after.find? (ruledRun.outputPlace []) = oneRule.find? (ruledRun.outputPlace []) ∧
        after.fileAt? (ruledRun.printPlace []) = none := by
  have rooted : oneRule.Rooted := rooted_flat (by decide)
  have passable : oneRule.Passable ruledRun.output := passable_of_notMem (by decide)
  have beside : ruledRun.outputPlace [] ≠ ruledRun.printPlace [] := by decide
  have emits (place : Place) : place ∉ ruledRun.emittedPlaces [] := by
    rintro ⟨path, given, -⟩
    cases given
  have due : Due ruledRun oneRule none := ⟨rfl, rfl, nofun⟩
  obtain ⟨withdrawn, broken⟩ :=
    failed_run_publishes_nothing rooted passable beside (emits _) (emits _)
  obtain ⟨-, -, records⟩ := broken none (oneRule.erase ["o.fingerprint"]) ruledSources [] _
    ruledSources.rules due rfl (by decide +kernel) rfl
  have fails := (records [unusedRule]).mpr (by decide)
  have runs : ran (run ruledRun) oneRule = (.error _, (ran (run ruledRun) oneRule).2) :=
    Prod.ext fails rfl
  refine ⟨rooted, passable, beside, emits _, emits _, rfl, _, runs, ?_⟩
  obtain ⟨output, print⟩ | ⟨_, _, _, other, -⟩ := withdrawn _ _ runs
  · refine ⟨output, (print none due).resolve_right fun refused => ?_⟩
    cases congrArg Prod.fst refused
  · cases due.unique other

/-- The path of the archive steps up from a directory that is not there yet. -/
def upwardRun : RunConfig :=
  { input := ⟨"in.jar"⟩, mapping := ⟨"m.srg"⟩, cleanOutput := ⟨"x/../x"⟩, usesCache := false }

/-- That directory is made before the run fails, and this is where the path leads then. The old
fingerprint beside it was out of reach when it should have been removed. -/
theorem failed_run_publishes_directory :
    oneRule.Rooted ∧ upwardRun.outputPlace [] ≠ upwardRun.printPlace [] ∧
      (∀ place, place ∉ upwardRun.emittedPlaces []) ∧
      (∀ path ∈ upwardRun.inputFiles, placeOf [] path ≠ upwardRun.outputPlace [] ∧
        placeOf [] path ≠ upwardRun.printPlace []) ∧
      Due upwardRun oneRule none ∧
      (ran (run upwardRun) oneRule).1 =
        .error (.injection Stage.Inject.name (.file "x/../x" .isDirectory)) ∧
      oneRule.isThere upwardRun.output = false ∧
      (ran (run upwardRun) oneRule).2.isThere upwardRun.output ∧
      (ran (run upwardRun) oneRule).2.isFile (Fingerprint.pathFor upwardRun.output) := by
  refine ⟨rooted_flat (by decide), by decide, ?_, by decide, ⟨rfl, rfl, nofun⟩, rfl, rfl, rfl, rfl⟩
  rintro place ⟨path, given, -⟩
  cases given

end Run

end JarRemap
