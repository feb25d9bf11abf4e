import JarRemap.Proofs.Run.History

/-!
# Results that are used again

Along an orderly history, a run that finds its own fingerprint finds the archive that it would make
itself.

The end of the module shows why the history has to be orderly: an archive may be where the fingerprint
of another belongs, and a path that leads up from a directory that is not there yet hides the old
fingerprint from the run that replaces the archive.
-/

namespace JarRemap.Run

open FileTree History
open Fingerprint (inputContents message Measured)

variable {injector : Injector} {start : FileTree}

namespace Orderly

variable {all : History} (orderly : Orderly injector start all)

include orderly

/-- What a run puts in its place is the result for the files that it found. -/
theorem result_of_built {history : History} {config : RunConfig}
    (run : .run config :: history <:+ all) {contents : List (Path × Bytes)}
    (hashed : inputContents (tree injector start history) config = .ok contents)
    {archive : List ArchiveEntry} {after : FileTree}
    (built : Built injector config (tree injector start history) archive after) :
    result injector config (tree injector start history) = .ok archive := by
  have happened := run.subset List.mem_cons_self
  obtain ⟨here, rooted⟩ := orderly.standing ((List.suffix_cons _ _).trans run)
  refine built.result_before rooted (reads_of_inputContents hashed) fun path member aliased => ?_
  rw [here] at aliased
  exact orderly.inputs happened path member ⟨config, happened, .inr aliased⟩

/-- Where two runs of a configuration find the same contents, they find the same files. -/
theorem sameInputs {history earlier : History} {config : RunConfig}
    (run : .run config :: history <:+ all) (before : .run config :: earlier <:+ all)
    {contents : List (Path × Bytes)}
    (hashed : inputContents (tree injector start history) config = .ok contents)
    (hashedBefore : inputContents (tree injector start earlier) config = .ok contents) :
    SameInputs config (tree injector start earlier) (tree injector start history) := by
  obtain ⟨here, rooted⟩ := orderly.standing ((List.suffix_cons _ _).trans run)
  obtain ⟨hereBefore, rootedBefore⟩ := orderly.standing ((List.suffix_cons _ _).trans before)
  exact sameInputs_of_contents (here.trans hereBefore.symm) rootedBefore rooted hashedBefore hashed
    (fun _ => orderly.plain before) fun _ => orderly.plain run

end Orderly

/-- The archive that is found beside a fingerprint of the run was made by an equal run. -/
theorem write_of_fresh {config : RunConfig} {history : History}
    (orderly : Orderly injector start (.run config :: history))
    (collisionFree : Set.InjOn Sha3.digest (messages injector start (.run config :: history)))
    (reusable : config.isClean ∧ config.usesCache) {contents : List (Path × Bytes)}
    (hashed : inputContents (tree injector start history) config = .ok contents)
    (fresh : Fingerprint.isFresh (tree injector start history) config.output
      (Bytes.hex (Sha3.digest (message config contents)))) :
    ∃ earlier archive, LastWrite injector start history earlier config archive ∧
      inputContents (tree injector start earlier) config = .ok contents ∧
      (tree injector start history).read config.output = .ok (.archive archive) := by
  have part := List.suffix_cons (.run config) history
  obtain ⟨here, -⟩ := orderly.standing part
  obtain ⟨content, stored, text, there, beside, spelled, same⟩ := isFresh_reads fresh
  have archived : (tree injector start history).fileAt? (config.outputPlace start.here) =
      some content := here ▸ fileAt?_of_read there
  have printed : (tree injector start history).fileAt? (config.printPlace start.here) =
      some stored := here ▸ fileAt?_of_read beside
  obtain ⟨earlier, maker, archive, others, -, origin⟩ :=
    orderly.accounted part List.mem_cons_self stored printed
  -- The fingerprint reads as it was written, so both digests are the same.
  rw [origin.stored, FileContent.data, Text.fromUTF8?_toUTF8] at spelled
  obtain rfl := Option.some.inj spelled
  rw [Bytes.trim_hex, String.toList_inj] at same
  have before := List.IsSuffix.trans origin.write.happened part
  have messages := collisionFree ⟨maker, earlier, others, before, origin.reusable, origin.hashed, rfl⟩
    ⟨config, history, contents, List.suffix_rfl, reusable, hashed, rfl⟩ (Bytes.hex_injective same)
  obtain ⟨rfl, rfl⟩ := Fingerprint.message_inj (inputContents_files origin.hashed)
    (inputContents_files hashed) (orderly.measured before origin.hashed)
    (orderly.measured List.suffix_rfl hashed) messages
  have found : content = .archive archive := by simpa [archived] using origin.beside
  exact ⟨earlier, archive, origin.write, origin.hashed, found ▸ there⟩

/-- A run that finds its result finds the archive of the last run that wrote there. That one had the
same configuration and the same input files, so a fresh run would come to the same archive. -/
theorem reused_archive_is_current {config : RunConfig} {history : History}
    (orderly : Orderly injector start (.run config :: history))
    (collisionFree : Set.InjOn Sha3.digest (messages injector start (.run config :: history)))
    {report : RunReport} {after : FileTree}
    (gives : Gives (runWith injector config) (tree injector start history) report after)
    (cached : report.fromCache = true) :
    ∃ earlier archive contents, LastWrite injector start history earlier config archive ∧
      inputContents (tree injector start earlier) config = .ok contents ∧
      inputContents (tree injector start history) config = .ok contents ∧
      after = tree injector start history ∧ after.read config.output = .ok (.archive archive) ∧
      result injector config after = .ok archive ∧
      ∀ fingerprint fresh made, Gives (produce injector config fingerprint) after fresh made →
        made.fileAt? (config.outputPlace start.here) = some (.archive archive) := by
  have part := List.suffix_cons (.run config) history
  have happened : .run config ∈ Event.run config :: history := List.mem_cons_self
  obtain ⟨here, -⟩ := orderly.standing part
  have apart := here.symm ▸ orderly.print_not_emitted happened happened
  obtain ⟨print, found, fresh, rfl⟩ := cached_run gives cached
  obtain ⟨reusable, contents, hashed, rfl⟩ := contents_of_fingerprint config found
  obtain ⟨earlier, archive, write, hashedBefore, there⟩ :=
    write_of_fresh orderly collisionFree reusable hashed fresh
  have before := write.happened.trans part
  -- The earlier run made the archive of the same files as there are now.
  have current : result injector config (tree injector start history) = .ok archive := by
    obtain ⟨hereBefore, -⟩ := orderly.standing ((List.suffix_cons _ _).trans before)
    obtain ⟨_, built⟩ := write.publishes.built
      (hereBefore.symm ▸ orderly.print_not_emitted happened happened)
    rw [(orderly.sameInputs List.suffix_rfl before hashed hashedBefore).result injector]
    exact orderly.result_of_built before hashedBefore built
  refine ⟨earlier, archive, contents, write, hashedBefore, hashed, rfl, there, current, ?_⟩
  intro fingerprint _ made produced
  obtain ⟨again, built, rebuilt, placed⟩ := produce_gives apart produced
  rw [orderly.result_of_built List.suffix_rfl hashed rebuilt] at current
  obtain rfl := Except.ok.inj current
  rwa [here] at placed

/-! ## Runs in one working directory -/

/-- A result is fresh if its fingerprint is as a run has left it. -/
theorem isFresh_of_reads {tree : FileTree} {output : Path} {content : FileContent} {digest : Bytes}
    (there : tree.read output = .ok content)
    (beside : tree.read (Fingerprint.pathFor output) =
      .ok (.bytes (Bytes.hex digest).toUTF8.toList)) :
    Fingerprint.isFresh tree output (Bytes.hex digest) := by
  rw [Fingerprint.isFresh, Bool.and_eq_true, isFile_iff]
  refine ⟨⟨content, there⟩, ?_⟩
  have told : tree.textAt (Fingerprint.pathFor output) = .ok (Bytes.hex digest) :=
    textAt_of_read beside (Text.fromUTF8?_toUTF8 _)
  simp only [told, Bytes.trim_hex, beq_self_eq_true]

/-- What a run reads from the tree: an archive that is nothing but bytes, and no file that is longer than
a file can be. -/
structure Legible (tree : FileTree) (config : RunConfig) : Prop where
  plain : ∀ {content}, tree.read config.input = .ok content → content.Plain
  measured : ∀ {contents}, inputContents tree config = .ok contents → Measured contents

/-- Where these runs leave something, there is no fingerprint at first, and it is nowhere near what they
read. -/
def Apart (start : FileTree) (configs : List RunConfig) : Prop :=
  ∀ config ∈ configs, start.fileAt? (config.printPlace start.here) = none ∧
    config.emittedDescriptor = none ∧
    ∀ other ∈ configs, ∀ path ∈ config.inputFiles, placeOf start.here path ≠ other.outputPlace start.here ∧
      placeOf start.here path ≠ other.printPlace start.here

theorem Apart.undisturbed {configs : List RunConfig} (apart : Apart start configs) (rooted : start.Rooted)
    {history : History} (among : ∀ {config}, .run config ∈ history → config ∈ configs)
    (edits : ∀ {after earlier}, .edit after :: earlier <:+ history →
      Edited (history.results start.here) (tree injector start earlier) after)
    (legible : ∀ {config earlier}, .run config :: earlier <:+ history →
      Legible (tree injector start earlier) config) :
    Undisturbed injector start history := by
  refine ⟨rooted, fun run => (apart _ (among run)).1, edits, fun run path member => ?_,
    fun run place emitted => ?_, fun happened => (legible happened).plain,
    fun happened => (legible happened).measured⟩
  · rintro ⟨other, otherRun, place⟩
    have away := (apart _ (among run)).2.2 other (among otherRun) path member
    exact place.elim away.1 away.2
  · obtain ⟨path, given, -⟩ := emitted
    rw [(apart _ (among run)).2.1] at given
    cases given

theorem tree_of_due {history : History} {config : RunConfig} {fingerprint : Option String}
    {before : FileTree} (found : tree injector start history = before)
    (due : Due config before fingerprint) :
    tree injector start (.run config :: history) =
      (ran (produce injector config fingerprint) before).2 := by
  rw [tree, found]
  exact congrArg Prod.snd (ran_of_due due)

theorem contents_of_reads {config : RunConfig} {tree : FileTree} {input mapping : Path}
    {content mapped : FileContent} (files : config.inputFiles = [input, mapping])
    (reads : tree.read input = .ok content) (maps : tree.read mapping = .ok mapped) :
    inputContents tree config = .ok [(input, content.data), (mapping, mapped.data)] := by
  simp only [inputContents, files, List.mapM_cons, List.mapM_nil, bytesAt, contentAt_of_read reads,
    contentAt_of_read maps]
  rfl

theorem fingerprint_of_contents {config : RunConfig} {tree : FileTree} {contents : List (Path × Bytes)}
    (reusable : (config.isClean && config.usesCache) = true)
    (found : inputContents tree config = .ok contents) :
    fingerprint? config tree = .ok (some (Bytes.hex (Sha3.digest (message config contents)))) := by
  rw [fingerprint?, if_pos reusable, Fingerprint.compute, found]
  rfl

/-- A run that builds its archive and may be left out next time stores its fingerprint. -/
theorem tree_of_built {history : History} {config : RunConfig} {print : String} {before built : FileTree}
    (found : tree injector start history = before) (due : Due config before (some print))
    (succeeds : (ran (build injector config (some print)) before).1.isOk)
    (builds : (ran (build injector config (some print)) before).2 = built) :
    tree injector start (.run config :: history) =
      (ran (Fingerprint.store config.output print) built).2 := by
  rw [tree_of_due found due, produce_eq, ran_bind]
  cases outcome : ran (build injector config (some print)) before with
  | mk result left =>
    rw [outcome] at succeeds builds
    obtain rfl := builds
    cases result with
    | error failure => cases succeeds
    | ok report =>
      dsimp only
      rw [ran_bind]
      split <;> simp_all

/-- A directory as an entry. -/
def emptyDirectory : ArchiveEntry := ⟨"d/", [], true, .epoch⟩

/-- The archive is remapped into another one, beside which the fingerprint is left. -/
def plainRun : RunConfig := { input := ⟨"in.jar"⟩, mapping := ⟨"m.srg"⟩, cleanOutput := ⟨"o"⟩ }

/-! ### A result that is used again -/

/-- An archive with a class `A`, as another program has written it. -/
def ownArchive : Bytes :=
  [0x50, 0x4B, 3, 4, 20, 0, 0, 0, 0, 0, 0, 0, 0x21, 0, 0x11, 0x90, 0x26, 0x3C, 31, 0, 0, 0, 31, 0, 0, 0, 7, 0,
    0, 0, 0x41, 0x2E, 0x63, 0x6C, 0x61, 0x73, 0x73, 0xCA, 0xFE, 0xBA, 0xBE, 0, 0, 0, 52, 0, 3, 1, 0, 1,
    0x41, 7, 0, 1, 0, 0, 0, 2, 0, 0, 0, 0, 0, 0, 0, 0, 0, 0, 0x50, 0x4B, 1, 2, 20, 3, 20, 0, 0, 0, 0, 0, 0, 0,
    0x21, 0, 0x11, 0x90, 0x26, 0x3C, 31, 0, 0, 0, 31, 0, 0, 0, 7, 0, 0, 0, 0, 0, 0, 0, 0, 0, 0, 0, 0x80, 1, 0,
    0, 0, 0, 0x41, 0x2E, 0x63, 0x6C, 0x61, 0x73, 0x73, 0x50, 0x4B, 5, 6, 0, 0, 0, 0, 1, 0, 1, 0, 53, 0, 0, 0,
    68, 0, 0, 0, 0, 0]

/-- The class by the name `B`. -/
def renamedClass : ArchiveEntry :=
  ⟨"B.class", [0xCA, 0xFE, 0xBA, 0xBE, 0, 0, 0, 52, 0, 4, 1, 0, 1, 0x41, 7, 0, 3, 1, 0, 1, 0x42, 0, 0, 0, 2,
    0, 0, 0, 0, 0, 0, 0, 0, 0, 0], false, .epoch⟩

/-- The mapping `CL: A B`. -/
def ownMapping : Bytes := [0x43, 0x4C, 0x3A, 0x20, 0x41, 0x20, 0x42]

/-- The archive with the class, another one and access rules, and what runs have made of them. -/
def withoutMapping (made : List (Place × Node)) : FileTree :=
  ⟨made ++ [(["in.jar"], .file (.bytes ownArchive)), (["a.cfg"], .file (.bytes [])),
    (["other.jar"], .file (.archive [emptyDirectory]))], []⟩

def withMapping (made : List (Place × Node)) : FileTree :=
  withoutMapping (made ++ [(["m.srg"], .file (.bytes ownMapping))])

/-- The result of another archive, under rules of the user, in the same place. -/
def foreignRun : RunConfig :=
  { plainRun with input := ⟨"other.jar"⟩, customRules := [⟨"a.cfg"⟩], dirtyOutput := some ⟨"o"⟩ }

def ownContents : List (Path × Bytes) :=
  [(⟨"in.jar"⟩, ownArchive), (⟨"m.srg"⟩, ownMapping)]

def ownPrint : String := Bytes.hex (Sha3.digest (message plainRun ownContents))

/-- What the run from the archive with the class leaves. -/
def ownResult : List (Place × Node) :=
  [(["o.fingerprint"], .file (.bytes ownPrint.toUTF8.toList)), (["o"], .file (.archive [renamedClass]))]

def foreignResult : List (Place × Node) := [(["o"], .file (.archive [emptyDirectory]))]

/-- A run from the other archive comes first. Behind the run from the archive with the class, the mapping
is taken away, so that the next such run fails, and brought back. -/
def troubled : History :=
  [.edit (withMapping ownResult), .run plainRun, .edit (withoutMapping ownResult), .run plainRun,
    .run foreignRun]

theorem ownContents_found {made : List (Place × Node)}
    (reads : (withMapping made).read ⟨"in.jar"⟩ = .ok (.bytes ownArchive))
    (mapped : (withMapping made).read ⟨"m.srg"⟩ = .ok (.bytes ownMapping)) :
    inputContents (withMapping made) plainRun = .ok ownContents :=
  contents_of_reads rfl reads mapped

theorem tree_foreign :
    tree .attributes (withMapping []) [.run foreignRun] = withMapping foreignResult := by
  decide +kernel

theorem tree_own :
    tree .attributes (withMapping []) [.run plainRun, .run foreignRun] = withMapping ownResult := by
  have due : Due plainRun (withMapping foreignResult) (some ownPrint) :=
    ⟨rfl, fingerprint_of_contents rfl (ownContents_found rfl rfl), fun _ _ => rfl⟩
  have builds : (ran (build .attributes plainRun (some ownPrint)) (withMapping foreignResult)).2 =
      withMapping [(["o"], .file (.archive [renamedClass]))] := by decide +kernel
  rw [tree_of_built tree_foreign due (by decide +kernel) builds, ownResult]
  generalize ownPrint = print
  rfl

theorem fails_without_mapping : ∃ failure, ran (runWith .attributes plainRun) (withoutMapping ownResult) =
    (.error failure, withoutMapping ownResult) :=
  ⟨_, rfl⟩

theorem runs_troubled {config : RunConfig} (run : .run config ∈ Event.run plainRun :: troubled) :
    config = plainRun ∨ config = foreignRun := by
  simp only [troubled, List.mem_cons, Event.run.injEq, reduceCtorEq, List.not_mem_nil] at run
  tauto

/-- What the runs of this history find. The run without a mapping finds less than the other ones, and the
first run has another archive. -/
theorem troubled_cases {config : RunConfig} {earlier : History}
    (happened : .run config :: earlier <:+ .run plainRun :: troubled) :
    (config = plainRun ∧
      (tree .attributes (withMapping []) earlier).read ⟨"in.jar"⟩ = .ok (.bytes ownArchive) ∧
      ∀ contents, inputContents (tree .attributes (withMapping []) earlier) plainRun = .ok contents →
        contents = ownContents) ∨
      config = foreignRun ∧ earlier = [] := by
  have finds {made : List (Place × Node)}
      (reads : (withMapping made).read ⟨"in.jar"⟩ = .ok (.bytes ownArchive))
      (mapped : (withMapping made).read ⟨"m.srg"⟩ = .ok (.bytes ownMapping)) :
      (withMapping made).read ⟨"in.jar"⟩ = .ok (.bytes ownArchive) ∧
        ∀ contents, inputContents (withMapping made) plainRun = .ok contents → contents = ownContents :=
    ⟨reads, fun _ found => Except.ok.inj (found.symm.trans (ownContents_found reads mapped))⟩
  simp only [troubled, List.suffix_cons_iff, List.cons.injEq, Event.run.injEq, reduceCtorEq, false_and,
    List.suffix_nil, or_false, false_or] at happened
  obtain ⟨rfl, rfl⟩ | ⟨rfl, rfl⟩ | ⟨rfl, rfl⟩ | ⟨rfl, rfl⟩ := happened
  · exact .inl ⟨rfl, finds rfl rfl⟩
  · refine .inl ⟨rfl, rfl, fun contents found => ?_⟩
    have failed : inputContents (withoutMapping ownResult) plainRun = .error _ := rfl
    cases failed.symm.trans found
  · exact .inl ⟨rfl, tree_foreign ▸ finds rfl rfl⟩
  · exact .inr ⟨rfl, rfl⟩

theorem edited_troubled {after : FileTree} {earlier : History}
    (happened : .edit after :: earlier <:+ .run plainRun :: troubled) :
    Edited (History.results (.run plainRun :: troubled) [])
      (tree .attributes (withMapping []) earlier) after := by
  have files (tree other : FileTree) (archive : other.fileAt? ["o"] = tree.fileAt? ["o"])
      (print : other.fileAt? ["o.fingerprint"] = tree.fileAt? ["o.fingerprint"]) :
      ∀ place ∈ History.results (.run plainRun :: troubled) [],
        other.fileAt? place = none ∨ other.fileAt? place = tree.fileAt? place := by
    rintro place ⟨config, run, there⟩
    obtain rfl | rfl := runs_troubled run
    all_goals
      obtain rfl | rfl := there
      · exact .inr archive
      · exact .inr print
  simp only [troubled, List.suffix_cons_iff, List.cons.injEq, Event.edit.injEq, reduceCtorEq, false_and,
    List.suffix_nil, or_false, false_or] at happened
  obtain ⟨rfl, rfl⟩ | ⟨rfl, rfl⟩ := happened
  · obtain ⟨_, failed⟩ := fails_without_mapping
    rw [tree, Event.leaves, tree, Event.leaves, failed]
    exact ⟨rfl, rooted_flat (by decide), files _ _ rfl rfl⟩
  · rw [tree_own]
    exact ⟨rfl, rooted_flat (by decide), files _ _ rfl rfl⟩

theorem legible_troubled {config : RunConfig} {earlier : History}
    (happened : .run config :: earlier <:+ .run plainRun :: troubled) :
    Legible (tree .attributes (withMapping []) earlier) config := by
  obtain ⟨rfl, reads, same⟩ | ⟨rfl, rfl⟩ := troubled_cases happened
  · refine ⟨fun read => ?_, fun found => ?_⟩
    · obtain rfl := Except.ok.inj (read.symm.trans reads)
      exact rfl
    · rw [same _ found, Measured]
      decide +kernel
  · have reads : (withMapping []).read foreignRun.input = .ok (.archive [emptyDirectory]) := rfl
    refine ⟨fun read => ?_, fun found => ?_⟩
    · obtain rfl := Except.ok.inj (read.symm.trans reads)
      rw [FileContent.Plain]
      decide +kernel
    · have contents : inputContents (withMapping []) foreignRun =
          .ok [(⟨"other.jar"⟩, Container.encode [emptyDirectory]), (⟨"m.srg"⟩, ownMapping), (⟨"a.cfg"⟩, [])] :=
        rfl
      rw [← Except.ok.inj (contents.symm.trans found), Measured]
      decide +kernel

/-- The last run uses the archive that the second one has made, although a run that is not clean had left
another archive there before, and a run has failed since. -/
theorem reused_archive_is_current_troubled :
    (∃ failure, ran (runWith .attributes plainRun) (withoutMapping ownResult) =
        (.error failure, withoutMapping ownResult)) ∧
      Orderly .attributes (withMapping []) (.run plainRun :: troubled) ∧
      Set.InjOn Sha3.digest (messages .attributes (withMapping []) (.run plainRun :: troubled)) ∧
      Gives (runWith .attributes plainRun) (tree .attributes (withMapping []) troubled)
        (cachedReport plainRun ownPrint) (withMapping ownResult) ∧
      (cachedReport plainRun ownPrint).fromCache = true ∧
      ∃ earlier contents,
        LastWrite .attributes (withMapping []) troubled earlier plainRun [renamedClass] ∧
        inputContents (tree .attributes (withMapping []) earlier) plainRun = .ok contents ∧
        inputContents (tree .attributes (withMapping []) troubled) plainRun = .ok contents ∧
        result .attributes plainRun (withMapping ownResult) = .ok [renamedClass] ∧
        ∀ fingerprint fresh made,
          Gives (produce .attributes plainRun fingerprint) (withMapping ownResult) fresh made →
          made.fileAt? (plainRun.outputPlace []) = some (.archive [renamedClass]) := by
  have undisturbed : Undisturbed .attributes (withMapping []) (.run plainRun :: troubled) := by
    have apart : Apart (withMapping []) [plainRun, foreignRun] := by
      unfold Apart
      decide
    exact apart.undisturbed (rooted_flat (by decide)) (fun run => by simpa using runs_troubled run)
      edited_troubled legible_troubled
  have orderly : Orderly .attributes (withMapping []) (.run plainRun :: troubled) := by
    refine ⟨undisturbed, fun run otherRun => ?_, fun happened => ?_⟩
    · obtain rfl | rfl := runs_troubled run <;> obtain rfl | rfl := runs_troubled otherRun <;> decide
    · -- There is no step up in the path of the archive.
      obtain rfl | rfl := runs_troubled (happened.subset List.mem_cons_self) <;>
        exact passable_of_notMem (by decide)
  have distinct : Set.InjOn Sha3.digest
      (messages .attributes (withMapping []) (.run plainRun :: troubled)) := by
    have single {bytes : Bytes}
        (told : bytes ∈ messages .attributes (withMapping []) (.run plainRun :: troubled)) :
        bytes = message plainRun ownContents := by
      obtain ⟨config, earlier, contents, happened, reusable, found, rfl⟩ := told
      obtain ⟨rfl, -, same⟩ | ⟨rfl, -⟩ := troubled_cases happened
      · rw [same contents found]
      · cases reusable.1
    intro bytes told other otherTold _
    rw [single told, single otherTold]
  have own : (withMapping ownResult).read plainRun.output = .ok (.archive [renamedClass]) := rfl
  have gives : Gives (runWith .attributes plainRun) (tree .attributes (withMapping []) troubled)
      (cachedReport plainRun ownPrint) (withMapping ownResult) :=
    ran_of_fresh rfl (fingerprint_of_contents rfl (ownContents_found rfl rfl))
      (isFresh_of_reads own rfl)
  obtain ⟨earlier, archive, contents, last, before, now, -, there, same, again⟩ :=
    reused_archive_is_current orderly distinct gives rfl
  obtain rfl := FileContent.archive.inj (Except.ok.inj (own.symm.trans there))
  exact ⟨fails_without_mapping, orderly, distinct, gives, rfl, earlier, contents, last, before, now, same, again⟩

/-! ## Histories that are not orderly -/

/-- Two archives and a mapping without entries, and what runs have made of them. -/
def workspace (made : List (Place × Node)) : FileTree :=
  ⟨made ++ [(["in.jar"], .file (.archive [])), (["other.jar"], .file (.archive [emptyDirectory])),
    (["m.srg"], .file (.bytes []))], []⟩

/-- The same archive goes to where the fingerprint of the plain run is. -/
def besideRun : RunConfig := { plainRun with cleanOutput := ⟨"o.fingerprint"⟩ }

/-- Another archive goes to where that of the plain run is, by way of a directory that is not there. -/
def detourRun : RunConfig :=
  { plainRun with input := ⟨"other.jar"⟩, cleanOutput := ⟨"x/../o"⟩, usesCache := false }

/-- What the fingerprint of a run from the first archive says. -/
def printOf (config : RunConfig) : String :=
  Bytes.hex (Sha3.digest (message config [(⟨"in.jar"⟩, Container.encode []), (⟨"m.srg"⟩, [])]))

/-- What was there at first is there. -/
structure Furnished (tree : FileTree) : Prop where
  archive : tree.read ⟨"in.jar"⟩ = .ok (.archive [])
  other : tree.read ⟨"other.jar"⟩ = .ok (.archive [emptyDirectory])
  mapping : tree.read ⟨"m.srg"⟩ = .ok (.bytes [])

section

variable {tree : FileTree} (furnished : Furnished tree)

include furnished

theorem Furnished.contents {input : Path} {entries : List ArchiveEntry}
    (archive : tree.read input = .ok (.archive entries)) {config : RunConfig}
    (files : config.inputFiles = [input, ⟨"m.srg"⟩]) :
    inputContents tree config = .ok [(input, Container.encode entries), (⟨"m.srg"⟩, [])] :=
  contents_of_reads files archive furnished.mapping

/-- The archives that are read are nothing but bytes, and short. -/
theorem Furnished.input {config : RunConfig} (among : config ∈ [plainRun, besideRun, detourRun]) :
    ∃ entries, tree.read config.input = .ok (.archive entries) ∧
      config.inputFiles = [config.input, ⟨"m.srg"⟩] ∧ (FileContent.archive entries).Plain ∧
      (Container.encode entries).length < 256 ^ 8 := by
  have empty : (FileContent.archive []).Plain := by
    rw [FileContent.Plain]
    decide +kernel
  have single : (FileContent.archive [emptyDirectory]).Plain := by
    rw [FileContent.Plain]
    decide +kernel
  simp only [List.mem_cons, List.not_mem_nil, or_false] at among
  obtain rfl | rfl | rfl := among
  · exact ⟨[], furnished.archive, rfl, empty, by decide +kernel⟩
  · exact ⟨[], furnished.archive, rfl, empty, by decide +kernel⟩
  · exact ⟨[emptyDirectory], furnished.other, rfl, single, by decide +kernel⟩

end

theorem rooted_workspace : (workspace []).Rooted := rooted_flat (by decide)

theorem undisturbed_of_furnished {history : History}
    (runs : ∀ event ∈ history, ∃ config ∈ [plainRun, besideRun, detourRun], event = .run config)
    (furnished : ∀ event earlier, event :: earlier <:+ history →
      Furnished (tree .attributes (workspace []) earlier)) :
    Undisturbed .attributes (workspace []) history := by
  have apart : Apart (workspace []) [plainRun, besideRun, detourRun] := by
    unfold Apart
    decide
  -- Nothing happens but runs of the three configurations, whose paths are known.
  have among {config : RunConfig} (run : .run config ∈ history) :
      config ∈ [plainRun, besideRun, detourRun] := by
    obtain ⟨other, found, same⟩ := runs _ run
    exact Event.run.inj same ▸ found
  refine apart.undisturbed rooted_workspace among (fun happened => ?_) fun happened => ?_
  · obtain ⟨_, -, same⟩ := runs _ (happened.subset List.mem_cons_self)
    cases same
  · have before := furnished _ _ happened
    obtain ⟨_, archive, files, plain, short⟩ :=
      before.input (among (happened.subset List.mem_cons_self))
    refine ⟨fun read => Except.ok.inj (archive.symm.trans read) ▸ plain, fun found => ?_⟩
    obtain rfl := Except.ok.inj ((before.contents archive files).symm.trans found)
    simpa [Measured] using short

/-- Where only one configuration is reused, no two messages can be mixed up. -/
theorem messages_distinct {history : History}
    (runs : ∀ {config}, .run config ∈ history → config.usesCache → config = plainRun)
    (furnished : ∀ event earlier, event :: earlier <:+ history →
      Furnished (tree .attributes (workspace []) earlier)) :
    Set.InjOn Sha3.digest (messages .attributes (workspace []) history) := by
  have single {bytes : Bytes} (told : bytes ∈ messages .attributes (workspace []) history) :
      bytes = message plainRun [(⟨"in.jar"⟩, Container.encode []), (⟨"m.srg"⟩, [])] := by
    obtain ⟨config, earlier, contents, happened, reusable, found, rfl⟩ := told
    obtain rfl := runs (happened.subset List.mem_cons_self) reusable.2
    have before := furnished _ _ happened
    obtain rfl := Except.ok.inj ((before.contents before.archive rfl).symm.trans found)
    rfl
  intro bytes told other otherTold _
  rw [single told, single otherTold]

/-! ### What each run leaves -/

def printFile (config : RunConfig) : Node := .file (.bytes (printOf config).toUTF8.toList)

def afterPlain : FileTree :=
  workspace [(["o.fingerprint"], printFile plainRun), (["o"], .file (.archive []))]

/-- The detour ends at the archive of the plain run, but not at its fingerprint. -/
def afterDetour : FileTree :=
  workspace [(["o"], .file (.archive [emptyDirectory])), (["x"], .directory),
    (["o.fingerprint"], printFile plainRun)]

def afterBeside : FileTree :=
  workspace [(["o.fingerprint.fingerprint"], printFile besideRun),
    (["o.fingerprint"], .file (.archive []))]

/-- The fingerprint of the plain run takes the place of the archive. -/
def afterBoth : FileTree :=
  workspace [(["o.fingerprint"], printFile plainRun), (["o"], .file (.archive [])),
    (["o.fingerprint.fingerprint"], printFile besideRun)]

theorem tree_nil : tree injector start [] = start := rfl

theorem tree_plain : tree .attributes (workspace []) [.run plainRun] = afterPlain := by
  have due : Due plainRun (workspace []) (some (printOf plainRun)) := ⟨rfl, rfl, fun _ _ => rfl⟩
  rw [tree_of_due tree_nil due, afterPlain, printFile]
  generalize printOf plainRun = print
  rfl

theorem tree_detour :
    tree .attributes (workspace []) [.run detourRun, .run plainRun] = afterDetour := by
  rw [tree, tree_plain]
  rfl

theorem tree_beside : tree .attributes (workspace []) [.run besideRun] = afterBeside := by
  have due : Due besideRun (workspace []) (some (printOf besideRun)) := ⟨rfl, rfl, fun _ _ => rfl⟩
  rw [tree_of_due tree_nil due, afterBeside, printFile]
  generalize printOf besideRun = print
  rfl

theorem tree_both : tree .attributes (workspace []) [.run plainRun, .run besideRun] = afterBoth := by
  have due : Due plainRun afterBeside (some (printOf plainRun)) := ⟨rfl, rfl, fun _ _ => rfl⟩
  rw [tree_of_due tree_beside due, afterBeside, afterBoth, printFile, printFile]
  generalize printOf plainRun = print, printOf besideRun = other
  rfl

/-- From each of these trees all three runs can start. -/
theorem furnished_after : Furnished (workspace []) ∧ Furnished afterPlain ∧ Furnished afterDetour ∧
    Furnished afterBeside ∧ Furnished afterBoth :=
  ⟨⟨rfl, rfl, rfl⟩, ⟨rfl, rfl, rfl⟩, ⟨rfl, rfl, rfl⟩, ⟨rfl, rfl, rfl⟩, ⟨rfl, rfl, rfl⟩⟩

/-- A run from the first archive does nothing when it finds its fingerprint. -/
theorem gives_cached {config : RunConfig} {tree : FileTree} (furnished : Furnished tree)
    (valid : config.validate = .ok ()) (reusable : (config.isClean && config.usesCache) = true)
    (files : config.inputFiles = [⟨"in.jar"⟩, ⟨"m.srg"⟩]) (content : FileContent)
    (there : tree.read config.output = .ok content)
    (beside : tree.read (Fingerprint.pathFor config.output) =
      .ok (.bytes (printOf config).toUTF8.toList)) :
    Gives (runWith injector config) tree (cachedReport config (printOf config)) tree := by
  exact ran_of_fresh valid
    (fingerprint_of_contents reusable (furnished.contents furnished.archive files))
    (isFresh_of_reads there beside)

theorem furnished_detour :
    ∀ event earlier, event :: earlier <:+ [.run plainRun, .run detourRun, .run plainRun] →
      Furnished (tree .attributes (workspace []) earlier) := by
  obtain ⟨atFirst, afterPlain, afterDetour, -⟩ := furnished_after
  intro event earlier happened
  simp only [List.suffix_cons_iff, List.cons.injEq, List.suffix_nil, reduceCtorEq, or_false]
    at happened
  obtain ⟨-, rfl⟩ | ⟨-, rfl⟩ | ⟨-, rfl⟩ := happened
  · exact tree_detour ▸ afterDetour
  · exact tree_plain ▸ afterPlain
  · exact atFirst

theorem furnished_both :
    ∀ event earlier, event :: earlier <:+ [.run besideRun, .run plainRun, .run besideRun] →
      Furnished (tree .attributes (workspace []) earlier) := by
  obtain ⟨atFirst, -, -, afterBeside, afterBoth⟩ := furnished_after
  intro event earlier happened
  simp only [List.suffix_cons_iff, List.cons.injEq, List.suffix_nil, reduceCtorEq, or_false]
    at happened
  obtain ⟨-, rfl⟩ | ⟨-, rfl⟩ | ⟨-, rfl⟩ := happened
  · exact tree_both ▸ afterBoth
  · exact tree_beside ▸ afterBeside
  · exact atFirst

/-- Where histories are only undisturbed, a run may find the archive of another configuration, or
something that is no archive at all. -/
theorem reused_archive_is_not_current :
    (Undisturbed .attributes (workspace []) [.run plainRun, .run detourRun, .run plainRun] ∧
      Set.InjOn Sha3.digest (messages .attributes (workspace [])
        [.run plainRun, .run detourRun, .run plainRun]) ∧
      ∃ report, Gives (runWith .attributes plainRun)
          (tree .attributes (workspace []) [.run detourRun, .run plainRun]) report afterDetour ∧
        report.fromCache = true ∧ afterDetour.read plainRun.output = .ok (.archive [emptyDirectory]) ∧
        result .attributes plainRun afterDetour = .ok []) ∧
    Undisturbed .attributes (workspace []) [.run besideRun, .run plainRun, .run besideRun] ∧
      ∃ report, Gives (runWith .attributes besideRun)
          (tree .attributes (workspace []) [.run plainRun, .run besideRun]) report afterBoth ∧
        report.fromCache = true ∧ ∃ text, afterBoth.read besideRun.output = .ok (.bytes text) := by
  obtain ⟨-, -, afterDetour, -, afterBoth⟩ := furnished_after
  constructor
  · refine ⟨undisturbed_of_furnished ?_ furnished_detour, messages_distinct ?_ furnished_detour,
      cachedReport plainRun (printOf plainRun), ?_, rfl, rfl, rfl⟩
    · simp
    · intro config run cached
      obtain rfl | rfl | rfl : config = plainRun ∨ config = detourRun ∨ config = plainRun := by
        simpa using run
      · rfl
      · cases cached
      · rfl
    · rw [tree_detour]
      exact gives_cached afterDetour rfl rfl rfl (.archive [emptyDirectory]) rfl rfl
  · refine ⟨undisturbed_of_furnished (by simp) furnished_both,
      cachedReport besideRun (printOf besideRun), ?_, rfl, _, rfl⟩
    rw [tree_both]
    exact gives_cached afterBoth rfl rfl rfl _ rfl rfl

end JarRemap.Run
