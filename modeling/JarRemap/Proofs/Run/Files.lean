import JarRemap.Proofs.FileTree.Action
import JarRemap.Proofs.Run.Inputs

/-!
# What a run does to files

A run first removes the old fingerprint. Then it changes the descriptor that it emits and, if
nothing fails, its archive; only after that it stores a new fingerprint.
-/

namespace JarRemap

open FileTree

/-! ## Places -/

namespace RunConfig

/-- Where the archive goes, for a working directory. -/
def outputPlace (config : RunConfig) (here : Place) : Place := placeOf here config.output

/-- Where its fingerprint goes. -/
def printPlace (config : RunConfig) (here : Place) : Place :=
  placeOf here (Fingerprint.pathFor config.output)

/-- Where the descriptor goes, if it goes anywhere. -/
def emittedPlaces (config : RunConfig) (here : Place) : Set Place :=
  {place | ∃ path ∈ config.emittedDescriptor, placeOf here path = place}

/-- The archive gets a name of its own. -/
def Named (config : RunConfig) : Prop :=
  config.output.endsInName ∧ config.output.namesDirectory = false

/-- Archive and fingerprint stand side by side. -/
theorem Named.places {config : RunConfig} (named : config.Named) (here : Place) :
    ∃ name parent, config.outputPlace here = name :: parent ∧
      config.printPlace here = (name ++ ".fingerprint") :: parent := by
  obtain ⟨front, name, -, last, extended⟩ := Path.exists_steps_extend config.output
  obtain ⟨notDot, notDots, own⟩ := last named.1 named.2
  obtain ⟨steps, absolute⟩ := extended ".fingerprint" (by decide) (by decide)
  have proper : name ++ ".fingerprint" ≠ "." ∧ name ++ ".fingerprint" ≠ ".." :=
    Path.append_ne_dots (by decide) name
  refine ⟨name, front.foldl stepFrom (if config.output.isAbsolute then [] else here), ?_, ?_⟩
  · rw [outputPlace, placeOf, own, List.foldl_concat, stepFrom, if_neg notDot, if_neg notDots]
  · rw [printPlace, Fingerprint.pathFor, placeOf, steps, absolute, List.foldl_concat, stepFrom,
      if_neg proper.1, if_neg proper.2]

theorem Named.print_ne_output {config : RunConfig} (named : config.Named) (here : Place) :
    config.printPlace here ≠ config.outputPlace here := by
  obtain ⟨name, parent, output, print⟩ := named.places here
  rw [output, print]
  intro same
  have length := congrArg String.length (List.cons.inj same).1
  rw [String.length_append] at length
  have : ".fingerprint".length = 12 := by decide
  omega

/-- Runs with the same archive have the same fingerprint. -/
theorem Named.printPlace_eq {config other : RunConfig} (named : config.Named)
    (otherNamed : other.Named) {here : Place}
    (same : other.outputPlace here = config.outputPlace here) :
    other.printPlace here = config.printPlace here := by
  obtain ⟨name, parent, output, print⟩ := named.places here
  obtain ⟨_, _, otherOutput, otherPrint⟩ := otherNamed.places here
  rw [output, otherOutput, List.cons.injEq] at same
  rw [print, otherPrint, same.1, same.2]

end RunConfig

namespace Run

variable (injector : Injector) (config : RunConfig)

/-- A run up to the archive in its place. -/
def build (fingerprint : Option String) : FileAction RunReport := do
  Fingerprint.invalidate config.output
  let plan ← FileAction.read (plan config)
  emitDescriptor config plan.table
  let stages ← finishStages injector config plan.table plan.entries
  return ⟨config.output, config.isClean, false, fingerprint, plan.remapStats :: stages,
    plan.outcome.records, plan.outcome.brokenCount, plan.updates⟩

/-- The run from the plan to the archive in its place. -/
def assemble (fingerprint : Option String) : FileAction RunReport := do
  let plan ← FileAction.read (plan config)
  emitDescriptor config plan.table
  let stages ← finishStages injector config plan.table plan.entries
  return ⟨config.output, config.isClean, false, fingerprint, plan.remapStats :: stages,
    plan.outcome.records, plan.outcome.brokenCount, plan.updates⟩

theorem build_eq (fingerprint : Option String) : build injector config fingerprint =
    (do Fingerprint.invalidate config.output; assemble injector config fingerprint) := rfl

/-- A plan is worked out from one tree, so its steps can be read one after another. -/
theorem read_plan {α : Type} (work : Plan → FileAction α) :
    FileAction.read (plan config) >>= work = (do
      let sources ← FileAction.read (loadSources config)
      let (entries, remapStats, rules) ← FileAction.read (remapInput config sources)
      liftM (checkBroken config rules.ledger.outcome)
      let (table, updates) ← FileAction.read (mergedDescriptor config rules.rules)
      work ⟨entries, remapStats, rules.ledger.outcome, table, updates⟩) := by
  -- Reading changes nothing, so each step fails or succeeds as it does within the plan.
  funext tree
  change ran _ tree = ran _ tree
  simp only [ran_bind, FileAction.ran_read, ran_lift, plan]
  cases loadSources config tree with
  | error failure => rfl
  | ok sources =>
    simp only [bind, Except.bind]
    cases remapInput config sources tree with
    | error failure => rfl
    | ok remapped =>
      obtain ⟨entries, remapStats, rules⟩ := remapped
      dsimp only
      cases checkBroken config rules.ledger.outcome with
      | error failure => rfl
      | ok _ =>
        dsimp only
        cases mergedDescriptor config rules.rules tree <;> rfl

/-- After that only the fingerprint is left to do. -/
theorem produce_eq (fingerprint : Option String) :
    produce injector config fingerprint = do
      let report ← build injector config fingerprint
      match fingerprint with
      | some print => Fingerprint.store config.output print
      | none => pure ()
      return report := by
  rw [produce, build, bind_assoc]
  refine bind_congr fun _ => ?_
  rw [bind_assoc, read_plan]
  cases fingerprint <;> simp only [bind_assoc, pure_bind]

/-- What invalidation does: the old fingerprint is gone, if it could be found. -/
structure Invalidated (before after : FileTree) : Prop where
  changes : Confined {config.printPlace before.here} before after
  others : ∀ place ≠ config.printPlace before.here, after.find? place = before.find? place
  print : after.fileAt? (config.printPlace before.here) = none ∨
    after.fileAt? (config.printPlace before.here) = before.fileAt? (config.printPlace before.here)
  gone : before.Rooted → before.Passable config.output →
    after.fileAt? (config.printPlace before.here) = none
  reads : ∀ {path : Path} {content : FileContent}, after.read path = .ok content →
    before.read path = .ok content

theorem ends_invalidate (before : FileTree) {fails : FileTree → Prop} (unchanged : fails before) :
    Ends (Fingerprint.invalidate config.output) before
      (fun _ => Invalidated config before) fails := by
  refine (FileAction.ends_change _ _ before unchanged).mono (fun _ after step => ?_) fun _ => id
  split at step
  next missing =>
    obtain rfl := Except.ok.inj step
    exact ⟨refl before, fun _ _ => rfl, .inr rfl, fun rooted passable =>
      remove_notFound rooted passable (by decide) (by decide) missing, id⟩
  next outcome =>
    obtain ⟨changes, removed⟩ := remove_ok step
    exact ⟨changes, fun place other => (find?_of_remove step place).trans (if_neg other), .inl removed,
      fun _ _ => removed, read_of_remove step⟩

/-- What emitting the descriptor does: nothing changes anywhere else. -/
structure Emitted (before after : FileTree) : Prop where
  changes : Confined (config.emittedPlaces before.here) before after
  others : ∀ place ∉ config.emittedPlaces before.here, after.find? place = before.find? place

theorem emitted_nothing (before : FileTree) : Emitted config before before :=
  ⟨refl before, fun _ _ => rfl⟩

theorem ends_emitDescriptor (table : StructureTable) (before : FileTree) :
    Ends (emitDescriptor config table) before (fun _ => Emitted config before) (· = before) := by
  rw [emitDescriptor]
  split
  next path given =>
    have changes : Ends (FileAction.writeText path table.print) before _ (· = before) :=
      FileAction.ends_change path _ before rfl
    refine changes.mono (fun _ after written => ?_) fun _ => id
    have emits : placeOf before.here path ∈ config.emittedPlaces before.here := ⟨path, given, rfl⟩
    refine ⟨(write_ok written).1.mono (Set.singleton_subset_iff.mpr emits), fun place outside => ?_⟩
    exact find?_of_write written fun same => outside (same ▸ emits)
  · exact emitted_nothing config before

/-- The last stages put the archive in its place, or nothing appears but the directories for it. -/
theorem ends_finishStages (plan : Plan) (before : FileTree) :
    Ends (finishStages injector config plan.table plan.entries) before
      (fun stages after => config.Named ∧ Confined {config.outputPlace before.here} before after ∧
        ∃ archive, packed injector config plan = .ok (archive, stages) ∧
          after.read config.output = .ok (.archive archive))
      (fun after => after = before ∨ after = ArchiveDraft.prepared config.output before) := by
  rw [finishStages]
  -- The injected entries are published right away, or else stripped and published then.
  by_cases strips : config.stripsSynthetics
  · simp only [strips, if_true]
    refine (FileAction.ends_lift _ before (.inl rfl)).bind ?_
    rintro ⟨entries, injectStats⟩ _ ⟨injected, rfl⟩
    refine ((ArchiveDraft.ends_publish config.output _ _).mono (fun _ _ => id) fun _ => .inr).bind ?_
    rintro stripStats after ⟨named, changes, archive, stripped, there⟩
    refine ⟨named, changes, archive, ?_, there⟩
    rw [packed, injected]
    simp only [bind, Except.bind, strips, if_true, stripped]
    rfl
  · simp only [strips]
    refine (FileAction.ends_adapt ((ArchiveDraft.ends_publish config.output _ before).mono
      (fun _ _ => id) fun _ => .inr)).bind ?_
    rintro injectStats after ⟨named, changes, archive, injected, there⟩
    refine ⟨named, changes, archive, ?_, there⟩
    rw [packed, injected]
    simp only [Except.mapError, bind, Except.bind, strips]
    rfl

/-- How the archive was made when it is in its place, and what the run tells. -/
structure Finished (before : FileTree) (report : RunReport) (archive : List ArchiveEntry)
    (after : FileTree) : Prop where
  named : config.Named
  changes : ∃ emitted, Emitted config before emitted ∧
    Confined {config.outputPlace before.here} emitted after
  read : after.read config.output = .ok (.archive archive)
  fresh : report.fromCache = false
  made : ∃ plan stages, Run.plan config before = .ok plan ∧
    packed injector config plan = .ok (archive, stages) ∧ report.stages = plan.remapStats :: stages

/-- Before the archive is in its place, only the descriptor is emitted and directories appear. -/
theorem ends_assemble (fingerprint : Option String) (before : FileTree) :
    Ends (assemble injector config fingerprint) before
      (fun report after => ∃ archive, Finished injector config before report archive after)
      (fun after => ∃ emitted, Emitted config before emitted ∧
        (after = emitted ∨ after = ArchiveDraft.prepared config.output emitted)) := by
  -- A run that fails before it emits the descriptor has emitted nothing.
  have stopped : ∃ emitted, Emitted config before emitted ∧
      (before = emitted ∨ before = ArchiveDraft.prepared config.output emitted) :=
    ⟨before, emitted_nothing config before, .inl rfl⟩
  refine (FileAction.ends_read _ _ stopped).bind ?_
  rintro plan _ ⟨planned, rfl⟩
  refine ((ends_emitDescriptor config plan.table _).mono (fun _ _ => id)
    fun _ same => same ▸ stopped).bind ?_
  rintro _ emitted emits
  refine ((ends_finishStages injector config plan emitted).mono (fun _ _ => id)
    fun after left => ⟨emitted, emits, left⟩).bind ?_
  rintro stages after ⟨named, finished, archive, packs, read⟩
  rw [emits.changes.here] at finished
  exact ⟨archive, named, ⟨emitted, emits, finished⟩, read, rfl, plan, stages, planned, packs, rfl⟩

/-- What a run has done when its archive is in its place. -/
structure Built (before : FileTree) (archive : List ArchiveEntry) (after : FileTree) : Prop where
  named : config.Named
  changes : Confined (config.emittedPlaces before.here ∪
    {config.printPlace before.here, config.outputPlace before.here}) before after
  /-- Nothing says any more that the archive is the one of an earlier run. -/
  cleared : before.Rooted → before.Passable config.output →
    after.fileAt? (config.printPlace before.here) = none
  placed : after.fileAt? (config.outputPlace before.here) = some (.archive archive)
  made : ∃ cleared, Confined {config.printPlace before.here} before cleared ∧
    result injector config cleared = .ok archive

/-- What a run has done that fails before: the archive is as it was, and so is its fingerprint or
else it is gone. -/
structure Untouched (before after : FileTree) : Prop where
  changes : Confined (config.emittedPlaces before.here ∪ {config.printPlace before.here}) before after
  print : after.fileAt? (config.printPlace before.here) = none ∨
    after.fileAt? (config.printPlace before.here) = before.fileAt? (config.printPlace before.here)

variable {injector config}

theorem untouched_self (before : FileTree) : Untouched config before before :=
  ⟨refl before, .inr rfl⟩

theorem Invalidated.untouched {before cleared after : FileTree}
    (invalidated : Invalidated config before cleared)
    (apart : config.printPlace before.here ∉ config.emittedPlaces before.here)
    (emitted : Confined (config.emittedPlaces before.here) cleared after) :
    Untouched config before after := by
  refine ⟨IsTrans.trans _ _ _ (invalidated.changes.mono Set.subset_union_right)
    (emitted.mono Set.subset_union_left), ?_⟩
  rw [emitted.files _ apart]
  exact invalidated.print

variable (injector) in
/-- A run puts its archive in its place after the old fingerprint is gone, or leaves it alone. -/
theorem ends_build (fingerprint : Option String) {before : FileTree}
    (apart : config.printPlace before.here ∉ config.emittedPlaces before.here) :
    Ends (build injector config fingerprint) before
      (fun _ after => ∃ archive, Built injector config before archive after)
      (Untouched config before) := by
  rw [build_eq]
  refine (ends_invalidate config before (untouched_self before)).bind fun _ cleared invalidated => ?_
  have here := invalidated.changes.here
  refine (ends_assemble injector config fingerprint cleared).mono ?_ ?_
  · rintro report after ⟨archive, named, ⟨emitted, emits, finished⟩, read, -, plan, stages, planned,
      packs, -⟩
    -- All places are meant for the working directory at the start, which never moves.
    have placed := fileAt?_of_read read
    have emits := emits.changes
    rw [finished.here, emits.here, here] at placed
    rw [here] at emits finished
    refine ⟨archive, named, ?_, fun rooted passable => ?_, placed, cleared, invalidated.changes, ?_⟩
    · refine IsTrans.trans _ _ _ (invalidated.changes.mono ?_)
        (IsTrans.trans _ _ _ (emits.mono Set.subset_union_left) (finished.mono ?_))
      · exact Set.singleton_subset_iff.mpr (.inr (.inl rfl))
      · exact Set.singleton_subset_iff.mpr (.inr (.inr rfl))
    · rw [finished.files _ (named.print_ne_output before.here), emits.files _ apart]
      exact invalidated.gone rooted passable
    · rw [result, planned]
      simp only [bind, Except.bind, packs]
      rfl
  · rintro after ⟨emitted, emits, left⟩
    have emits := emits.changes
    rw [here] at emits
    -- The directories that are made for the archive hold no file yet.
    obtain rfl | rfl := left
    · exact invalidated.untouched apart emits
    · exact invalidated.untouched apart (IsTrans.trans _ _ _ emits
        ((ArchiveDraft.prepared_confined config.output emitted).mono (Set.empty_subset _)))

theorem exists_finished {fingerprint : Option String} {before after : FileTree} {report : RunReport}
    (gives : Gives (build injector config fingerprint) before report after) :
    ∃ cleared archive, Invalidated config before cleared ∧
      Finished injector config cleared report archive after := by
  rw [build_eq, gives_bind_iff] at gives
  obtain ⟨_, cleared, clears, assembles⟩ := gives
  have clearing : Ends _ before _ fun _ => True := ends_invalidate config before trivial
  obtain ⟨archive, finished⟩ := (ends_assemble injector config fingerprint cleared).gives assembles
  exact ⟨cleared, archive, clearing.gives clears, finished⟩

theorem Finished.here {before after : FileTree} {report : RunReport} {archive : List ArchiveEntry}
    (finished : Finished injector config before report archive after) : after.here = before.here := by
  obtain ⟨emitted, emits, moved⟩ := finished.changes
  exact moved.here.trans emits.changes.here

/-! ## Whole runs -/

variable (injector config)

/-- A fingerprint is made of all inputs, and only of those of a clean run that may be left out. -/
theorem contents_of_fingerprint {tree : FileTree} {print : String}
    (found : fingerprint? config tree = .ok (some print)) :
    (config.isClean ∧ config.usesCache) ∧
      ∃ contents, Fingerprint.inputContents tree config = .ok contents ∧
        print = Bytes.hex (Sha3.digest (Fingerprint.message config contents)) := by
  rw [fingerprint?] at found
  split at found
  next reusable =>
    refine ⟨by simpa using reusable, ?_⟩
    rw [Fingerprint.compute] at found
    cases given : Fingerprint.inputContents tree config with
    | error failure =>
      rw [given] at found
      cases found
    | ok contents =>
      rw [given] at found
      exact ⟨contents, rfl, (Option.some.inj (Except.ok.inj found)).symm⟩
  · cases found

/-- The run has something to do: its result is not there yet. -/
def Due (tree : FileTree) (fingerprint : Option String) : Prop :=
  config.validate = .ok () ∧ fingerprint? config tree = .ok fingerprint ∧
    ∀ print ∈ fingerprint, Fingerprint.isFresh tree config.output print = false

/-- A run from this tree is not left out, and puts an archive with these entries in its place. Storing
the fingerprint may still fail. -/
def Publishes (tree : FileTree) (archive : List ArchiveEntry) : Prop :=
  ∃ fingerprint report after, Due config tree fingerprint ∧
    Gives (build injector config fingerprint) tree report after ∧
    after.fileAt? (config.outputPlace tree.here) = some (.archive archive)

/-- A run stops at once, or finds its result there, or makes it. -/
theorem runWith_cases (before : FileTree) :
    (∃ failure, ran (runWith injector config) before = (.error failure, before) ∧
      ∀ fingerprint, ¬Due config before fingerprint) ∨
    (∃ print, fingerprint? config before = .ok (some print) ∧
      Fingerprint.isFresh before config.output print ∧
      ran (runWith injector config) before = (.ok (cachedReport config print), before)) ∨
    ∃ fingerprint, Due config before fingerprint ∧
      ran (runWith injector config) before = ran (produce injector config fingerprint) before := by
  rw [runWith]
  cases valid : config.validate with
  | error failure =>
    refine .inl ⟨failure, rfl, fun fingerprint due => ?_⟩
    cases valid.symm.trans due.1
  | ok _ =>
    simp only [ran_bind, ran_lift, FileAction.ran_read]
    cases found : fingerprint? config before with
    | error failure =>
      refine .inl ⟨failure, rfl, fun fingerprint due => ?_⟩
      cases found.symm.trans due.2.1
    | ok fingerprint =>
      -- Without a fingerprint nothing is looked for, and the result is always made.
      cases fingerprint with
      | none => exact .inr (.inr ⟨none, ⟨valid, found, by simp⟩, rfl⟩)
      | some print =>
        simp only [ran_bind, ran_get]
        by_cases fresh : Fingerprint.isFresh before config.output print
        · exact .inr (.inl ⟨print, rfl, fresh, by rw [if_pos fresh]; rfl⟩)
        · refine .inr (.inr ⟨some print, ⟨valid, found, ?_⟩, by rw [if_neg fresh]⟩)
          simpa using fresh

variable {injector config}

theorem Due.unique {tree : FileTree} {fingerprint other : Option String}
    (due : Due config tree fingerprint) (otherDue : Due config tree other) : other = fingerprint :=
  Except.ok.inj (otherDue.2.1.symm.trans due.2.1)

/-- A run that has something to do does it. -/
theorem ran_of_due {fingerprint : Option String} {before : FileTree}
    (due : Due config before fingerprint) :
    ran (runWith injector config) before = ran (produce injector config fingerprint) before := by
  obtain ⟨_, -, never⟩ | ⟨print, found, fresh, -⟩ | ⟨other, otherDue, runs⟩ :=
    runWith_cases injector config before
  · exact absurd due (never fingerprint)
  · -- What is due is not fresh.
    obtain rfl := Except.ok.inj (found.symm.trans due.2.1)
    simpa [fresh] using due.2.2 print rfl
  · rwa [← otherDue.unique due] at runs

/-- A run that finds its result does nothing. -/
theorem ran_of_fresh {print : String} {before : FileTree} (valid : config.validate = .ok ())
    (found : fingerprint? config before = .ok (some print))
    (fresh : Fingerprint.isFresh before config.output print) :
    ran (runWith injector config) before = (.ok (cachedReport config print), before) := by
  simp only [runWith, ran_bind, ran_lift, FileAction.ran_read, ran_get, valid, found, if_pos fresh]
  rfl

theorem Publishes.due {tree : FileTree} {archive : List ArchiveEntry}
    (publishes : Publishes injector config tree archive) : ∃ fingerprint, Due config tree fingerprint :=
  let ⟨fingerprint, _, _, due, _⟩ := publishes
  ⟨fingerprint, due⟩

theorem Publishes.built {tree : FileTree} {archive : List ArchiveEntry}
    (publishes : Publishes injector config tree archive)
    (apart : config.printPlace tree.here ∉ config.emittedPlaces tree.here) :
    ∃ after, Built injector config tree archive after := by
  obtain ⟨fingerprint, report, after, -, gives, placed⟩ := publishes
  obtain ⟨made, built⟩ := (ends_build injector fingerprint apart).gives gives
  obtain rfl : made = archive :=
    FileContent.archive.inj (Option.some.inj (built.placed.symm.trans placed))
  exact ⟨after, built⟩

/-- What is left when the archive is in its place: the fingerprint is stored too, or nothing more
happens. -/
def Stored (config : RunConfig) (here : Place) (fingerprint : Option String)
    (built after : FileTree) : Prop :=
  after = built ∨ ∃ print, fingerprint = some print ∧ Confined {config.printPlace here} built after ∧
    after.fileAt? (config.printPlace here) = some (.bytes print.toUTF8.toList)

theorem stored_after_build {fingerprint : Option String} {before built : FileTree} {report : RunReport}
    (gives : Gives (build injector config fingerprint) before report built) :
    Stored config before.here fingerprint built
      (ran (produce injector config fingerprint) before).2 := by
  obtain ⟨_, _, invalidated, finished⟩ := exists_finished gives
  have here := finished.here.trans invalidated.changes.here
  rw [produce_eq, ran_bind, gives]
  cases fingerprint with
  | none => exact .inl rfl
  | some print =>
    have unchanged : (fun after => after = built) built := rfl
    have stores : Ends (Fingerprint.store config.output print) built _ _ :=
      FileAction.ends_writeText (Fingerprint.pathFor config.output) print built unchanged
    rw [Ends, here] at stores
    dsimp only
    rw [ran_bind]
    split at stores
    next stored => exact .inr ⟨print, rfl, stores⟩
    next failed => exact .inl stores.symm

/-- A run that is not left out builds its archive and then stores its fingerprint. -/
theorem exists_built_of_produce {fingerprint : Option String} {before after : FileTree}
    {report : RunReport} (gives : Gives (produce injector config fingerprint) before report after) :
    ∃ built, Gives (build injector config fingerprint) before report built ∧
      Stored config before.here fingerprint built after := by
  have left : (ran (produce injector config fingerprint) before).2 = after := congrArg Prod.snd gives
  rw [produce_eq, gives_bind_iff] at gives
  obtain ⟨found, built, builds, rest⟩ := gives
  obtain rfl : report = found := by
    cases fingerprint with
    | none => exact ((gives_pure_iff _ _ _ _).mp rest).1
    | some print =>
      -- The report is given only after the fingerprint was stored, but it is the same one.
      obtain ⟨_, _, -, ends⟩ := (gives_bind_iff _ _ _ _ _).mp rest
      exact ((gives_pure_iff _ _ _ _).mp ends).1
  exact ⟨built, builds, left ▸ stored_after_build builds⟩

variable (injector)

/-- A run leaves its archive alone, or publishes one and then may store its fingerprint. -/
theorem runWith_leaves {before : FileTree}
    (apart : config.printPlace before.here ∉ config.emittedPlaces before.here) :
    (Untouched config before (ran (runWith injector config) before).2 ∧
      ∀ archive, ¬Publishes injector config before archive) ∨
    ∃ fingerprint archive built, Due config before fingerprint ∧
      Publishes injector config before archive ∧ Built injector config before archive built ∧
      Stored config before.here fingerprint built (ran (runWith injector config) before).2 := by
  obtain ⟨failure, runs, never⟩ | ⟨print, found, fresh, runs⟩ | ⟨fingerprint, due, runs⟩ :=
    runWith_cases injector config before
  · rw [runs]
    exact .inl ⟨untouched_self before, fun archive publishes =>
      let ⟨fingerprint, due⟩ := publishes.due
      never fingerprint due⟩
  · rw [runs]
    refine .inl ⟨untouched_self before, fun archive publishes => ?_⟩
    obtain ⟨fingerprint, due⟩ := publishes.due
    obtain rfl := Except.ok.inj (found.symm.trans due.2.1)
    simpa [fresh] using due.2.2 print rfl
  · rw [runs]
    have ends := ends_build injector fingerprint apart
    -- Nothing is stored before the archive is there, so a run that fails while it builds stores
    -- nothing.
    cases built : ran (build injector config fingerprint) before with
    | mk outcome after =>
      cases outcome with
      | error failure =>
        refine .inl ⟨?_, fun archive publishes => ?_⟩
        · rw [produce_eq, ran_bind, built]
          exact ends.failed built
        · obtain ⟨other, report, _, otherDue, gives, -⟩ := publishes
          obtain rfl := due.unique otherDue
          cases built.symm.trans gives
      | ok report =>
        obtain ⟨archive, done⟩ := ends.gives built
        exact .inr ⟨fingerprint, archive, after, due, ⟨fingerprint, report, after, due, built,
          done.placed⟩, done, stored_after_build built⟩

/-- What is fresh is there, with its fingerprint beside it. -/
theorem isFresh_reads {tree : FileTree} {output : Path} {print : String}
    (fresh : Fingerprint.isFresh tree output print) :
    ∃ content stored text, tree.read output = .ok content ∧
      tree.read (Fingerprint.pathFor output) = .ok stored ∧
      String.fromUTF8? (ByteArray.mk stored.data.toArray) = some text ∧
      Text.trim text.toList = print.toList := by
  rw [Fingerprint.isFresh, Bool.and_eq_true, isFile_iff] at fresh
  obtain ⟨⟨content, there⟩, beside⟩ := fresh
  split at beside
  next text told =>
    rw [textAt] at told
    obtain ⟨data, given, told⟩ := (bind_ok_iff _ _ _).mp told
    rw [bytesAt, contentAt] at given
    -- The stored text is that of the file beside the archive, which therefore can be read.
    cases found : tree.read (Fingerprint.pathFor output) with
    | error fault =>
      rw [found] at given
      cases given
    | ok stored =>
      rw [found] at given
      obtain rfl : stored.data = data := Except.ok.inj given
      split at told
      next spelled =>
        obtain rfl := (pure_ok_iff _ _).mp told
        exact ⟨content, stored, _, there, rfl, spelled, by simpa using beside⟩
      · cases told
  · cases beside

theorem Stored.confined {here : Place} {fingerprint : Option String} {built after : FileTree}
    (stored : Stored config here fingerprint built after) :
    Confined {config.printPlace here} built after := by
  obtain rfl | ⟨_, -, changes, -⟩ := stored
  · exact refl after
  · exact changes

/-- Whatever becomes of a run, it changes nothing but its own files. -/
theorem runWith_confined {before : FileTree}
    (apart : config.printPlace before.here ∉ config.emittedPlaces before.here) :
    Confined (config.emittedPlaces before.here ∪
      {config.printPlace before.here, config.outputPlace before.here}) before
      (ran (runWith injector config) before).2 := by
  obtain ⟨untouched, -⟩ | ⟨_, _, built, -, -, made, stored⟩ := runWith_leaves injector apart
  · refine untouched.changes.mono (Set.union_subset_union_right _ ?_)
    exact Set.singleton_subset_iff.mpr (.inl rfl)
  · refine IsTrans.trans _ _ _ made.changes (stored.confined.mono ?_)
    exact Set.singleton_subset_iff.mpr (.inr (.inl rfl))

variable {injector}

/-- Where a run that is not left out builds its archive, it stays. -/
theorem produce_gives {fingerprint : Option String} {before after : FileTree} {report : RunReport}
    (apart : config.printPlace before.here ∉ config.emittedPlaces before.here)
    (gives : Gives (produce injector config fingerprint) before report after) :
    ∃ archive built, Built injector config before archive built ∧
      after.fileAt? (config.outputPlace before.here) = some (.archive archive) := by
  obtain ⟨built, builds, stored⟩ := exists_built_of_produce gives
  obtain ⟨archive, made⟩ := (ends_build injector fingerprint apart).gives builds
  refine ⟨archive, built, made, ?_⟩
  rw [stored.confined.files _ (by simpa using (made.named.print_ne_output before.here).symm)]
  exact made.placed

/-- A run that succeeds says whether it found its result or made it. -/
theorem gives_cases {before after : FileTree} {report : RunReport}
    (gives : Gives (runWith injector config) before report after) :
    (report.fromCache = true ∧ after = before ∧ ∃ print, fingerprint? config before = .ok (some print) ∧
      Fingerprint.isFresh before config.output print) ∨
    ∃ cleared fingerprint built archive, Invalidated config before cleared ∧
      Finished injector config cleared report archive built ∧
      Stored config before.here fingerprint built after := by
  obtain ⟨failure, runs, -⟩ | ⟨print, found, fresh, runs⟩ | ⟨fingerprint, -, runs⟩ :=
    runWith_cases injector config before
  · cases runs.symm.trans gives
  · obtain ⟨same, left⟩ := Prod.mk.inj (runs.symm.trans gives)
    obtain rfl := Except.ok.inj same
    exact .inl ⟨rfl, left.symm, print, found, fresh⟩
  · obtain ⟨built, builds, stored⟩ := exists_built_of_produce (runs.symm.trans gives)
    obtain ⟨cleared, archive, invalidated, finished⟩ := exists_finished builds
    exact .inr ⟨cleared, fingerprint, built, archive, invalidated, finished, stored⟩

/-- A run that says it was left out found its result. -/
theorem cached_run {before after : FileTree} {report : RunReport}
    (gives : Gives (runWith injector config) before report after) (cached : report.fromCache = true) :
    ∃ print, fingerprint? config before = .ok (some print) ∧
      Fingerprint.isFresh before config.output print ∧ after = before := by
  obtain ⟨-, same, print, found, fresh⟩ | ⟨_, _, _, _, -, finished, -⟩ := gives_cases gives
  · exact ⟨print, found, fresh, same⟩
  · cases cached.symm.trans finished.fresh

/-- What a run puts in its place is the result for the files that it found. -/
theorem Built.result_before {before after : FileTree} {archive : List ArchiveEntry}
    (built : Built injector config before archive after) (rooted : before.Rooted)
    (reads : ∀ path ∈ config.inputFiles, ∃ content, before.read path = .ok content)
    (apart : ∀ path ∈ config.inputFiles, placeOf before.here path ≠ config.printPlace before.here) :
    result injector config before = .ok archive := by
  obtain ⟨cleared, changes, made⟩ := built.made
  rw [← (sameInputs_of_confined changes rooted reads (by simpa using apart)).result injector]
  exact made

end Run

end JarRemap
