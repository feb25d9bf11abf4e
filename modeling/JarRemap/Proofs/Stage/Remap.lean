import JarRemap.Proofs.Access.Marks
import JarRemap.Proofs.Arranged
import JarRemap.Proofs.ClassFile.Built
import JarRemap.Proofs.Hierarchy.Classes
import JarRemap.Proofs.SymbolMap.Agreement
import JarRemap.Stage.Remap

/-!
# The order of entries

The stage that renames gives the same entries and leaves the same ledger, in whatever order the
entries of the archive come, as long as no two of their classes have the same name.
-/

namespace JarRemap.Stage.Remap

open Failure (ofFault_ok_iff)

/-- The name of the class in the entry, if it is for a class and this can be read. -/
def definedClass? (entry : ArchiveEntry) : Option String := do
  guard entry.isClass
  let file ← (ClassFile.decode entry.data).toOption
  file.name.toOption

theorem definedClass?_of_read {entry : ArchiveEntry} (isClass : entry.isClass = true) {file : ClassFile}
    (read : ClassFile.decode entry.data = .ok file) {name : String} (named : file.name = .ok name) :
    definedClass? entry = some name := by
  simp [definedClass?, isClass, read, named, Except.toOption]

/-- The names of all classes of an archive. -/
def classNames (entries : List ArchiveEntry) : List String := entries.filterMap definedClass?

/-! ## Reading the classes -/

/-- The classes that were read. -/
def filesOf (loaded : List Loaded) : List ClassFile :=
  (loaded.filterMap Prod.snd).map TrackedClass.current

theorem hierarchyOf_ok_iff (loaded : List Loaded) (hierarchy : Hierarchy) :
    hierarchyOf loaded = .ok hierarchy ↔ Hierarchy.ofClasses (filesOf loaded) = .ok hierarchy := by
  rw [hierarchyOf, ofFault_ok_iff, Hierarchy.ofClasses, filesOf, List.foldlM_map]

/-- An entry is loaded with its class, if it is for one. -/
theorem load_cases {entry : ArchiveEntry} {item : Loaded} (loads : load entry = .ok item) :
    (entry.isClass = false ∧ item = (entry, none)) ∨
      entry.isClass = true ∧ ∃ file first, ClassFile.decode entry.data = .ok file ∧
        file.name = .ok first.name ∧ item = (entry, some ⟨file, first⟩) := by
  rw [load] at loads
  split at loads
  next isClass =>
    simp only [bind_ok_iff, pure_ok_iff, ofFault_ok_iff] at loads
    obtain ⟨file, decoded, tracked, tracks, rfl⟩ := loads
    simp only [TrackedClass.ofClass, FirstNames.ofClass, bind_ok_iff, pure_ok_iff] at tracks
    obtain ⟨_, ⟨name, named, _, -, _, -, _, -, rfl⟩, rfl⟩ := tracks
    exact .inr ⟨isClass, file, _, decoded, named, rfl⟩
  next other =>
    obtain rfl := (pure_ok_iff _ _).mp loads
    exact .inl ⟨by simpa using other, rfl⟩

private theorem files_of_loaded {entries : List ArchiveEntry} {loaded : List Loaded}
    (loads : List.Forall₂ (fun entry item => load entry = .ok item) entries loaded) :
    (∀ file ∈ filesOf loaded, file.Resolves) ∧
      (filesOf loaded).map ClassFile.name = (classNames entries).map .ok := by
  induction loads with
  | nil => exact ⟨by simp [filesOf], rfl⟩
  | @cons entry item entries loaded head _ ih =>
    simp only [filesOf, classNames, List.filterMap_cons] at ih ⊢
    rcases load_cases head with ⟨other, rfl⟩ | ⟨isClass, file, first, decoded, named, rfl⟩
    · have unnamed : definedClass? entry = none := by simp [definedClass?, other]
      rw [unnamed]
      exact ih
    · rw [definedClass?_of_read isClass decoded named]
      refine ⟨?_, ?_⟩
      · rw [List.map_cons, List.forall_mem_cons]
        exact ⟨(ClassFile.whole_decoded decoded).resolves, ih.1⟩
      · simp only [List.map_cons, ih.2, named]

/-- The classes define hierarchies with the same ancestors in every order. -/
private theorem hierarchyOf_arranged {entries : List ArchiveEntry} {loaded : List Loaded}
    (loads : entries.mapM load = .ok loaded) (distinct : (classNames entries).Nodup)
    {order : List Nat} (permutes : order.Perm (List.range loaded.length)) :
    ∃ first second, hierarchyOf loaded = .ok first ∧
      hierarchyOf (arranged order loaded) = .ok second ∧
      ∀ name, second.ancestors name = first.ancestors name := by
  obtain ⟨resolves, names⟩ := files_of_loaded ((mapM_ok_iff _ _ _).mp loads)
  have moved : (filesOf loaded).Perm (filesOf (arranged order loaded)) :=
    (((arranged_perm permutes).filterMap _).map _).symm
  have apart : ((filesOf loaded).map ClassFile.name).Nodup := by
    rw [names]
    exact distinct.map fun _ _ => Except.ok.inj
  simp only [hierarchyOf_ok_iff]
  exact Hierarchy.ofClasses_perm moved resolves apart

/-! ## Changing the classes -/

private theorem exists_marks_remapClass (symbols : SymbolMap) (rules : RuleSet)
    (tracked : TrackedClass) :
    ∃ outcome keys, Marks rules (remapClass symbols tracked) outcome keys := by
  obtain ⟨outcome, after, keys, runs⟩ :=
    Transform.exists_applyAll symbols [.remap, .access] rules tracked
  simp only [ran] at runs
  cases outcome with
  | error fault =>
    refine ⟨.error (.classFile fault), keys, fun marks => ?_⟩
    simp only [remapClass, ran_mk, runs]
  | ok changed =>
    refine ⟨.ok (after, changed), keys, fun marks => ?_⟩
    simp only [remapClass, ran_mk, runs]

/-- What becomes of an entry does not depend on the entries before it. -/
private theorem exists_marks_remapEntry (symbols : SymbolMap) (rules : RuleSet) (item : Loaded) :
    ∃ outcome keys, Marks rules (remapEntry symbols item) outcome keys := by
  obtain ⟨entry, held⟩ := item
  cases held with
  | none => exact ⟨_, _, marks_lift (.ok (entry, EntryFate.copied))⟩
  | some tracked =>
    refine exists_marks_bind (exists_marks_remapClass symbols rules tracked) fun changed => ?_
    exact exists_marks_bind ⟨_, _, marks_lift _⟩ fun entry => ⟨.ok _, [], marks_lift (.ok _)⟩

private theorem stats_perm (stage : String) {first second : Staged} (moved : first.Perm second) :
    Staged.stats stage first = Staged.stats stage second := by
  have fates := moved.map Prod.snd
  simp only [Staged.stats, StageStats.ofFates, fates.length_eq, fates.count_eq]

private theorem gives_remapAll_iff {table : MappingTable} {hierarchy : Hierarchy} {rules : RuleSet}
    {outcome : Loaded → Except Failure (ArchiveEntry × EntryFate)} {keys : Loaded → List String}
    (marks : ∀ item, Marks rules (remapEntry ⟨table, hierarchy⟩ item) (outcome item) (keys item))
    (loaded : List Loaded) (output : List ArchiveEntry) (stats : StageStats) (after : RuleSet) :
    Gives (remapAll table loaded hierarchy) rules (output, stats) after ↔
      ∃ staged, loaded.mapM outcome = .ok staged ∧ after = rules.marked (loaded.flatMap keys) ∧
        output = staged.map Prod.fst ∧ stats = Staged.stats name staged := by
  have run := gives_mapM_iff marks loaded []
  simp only [RuleSet.marked_nil, List.nil_append] at run
  simp only [remapAll, gives_bind_iff, gives_pure_iff, run, Staged.counted, Prod.mk.injEq]
  constructor
  · rintro ⟨staged, _, ⟨done, rfl⟩, same, rfl⟩
    exact ⟨staged, done, rfl, same⟩
  · rintro ⟨staged, done, rfl, same⟩
    exact ⟨staged, _, ⟨done, rfl⟩, same, rfl⟩

private theorem remapAll_arranged_iff {table : MappingTable} {first second : Hierarchy}
    (same : ∀ name, second.ancestors name = first.ancestors name) {loaded : List Loaded}
    {order : List Nat} (permutes : order.Perm (List.range loaded.length)) (rules : RuleSet)
    (output : List ArchiveEntry) (stats : StageStats) (after : RuleSet) :
    Gives (remapAll table (arranged order loaded) second) rules (output, stats) after ↔
      ∃ original, Gives (remapAll table loaded first) rules (original, stats) after ∧
        output = arranged order original := by
  have agree : SymbolMap.Agree ⟨table, first⟩ ⟨table, second⟩ := ⟨rfl, same⟩
  have steps : remapEntry ⟨table, second⟩ = remapEntry ⟨table, first⟩ := by
    funext item
    obtain ⟨entry, held⟩ := item
    cases held with
    | none => rfl
    | some tracked => simp only [remapEntry, remapClass, Transform.applyAll_agree agree]
  choose outcome keys marks using exists_marks_remapEntry ⟨table, first⟩ rules
  have marks' := marks
  rw [← steps] at marks'
  -- The same keys are marked, though in another order.
  have marked : rules.marked ((arranged order loaded).flatMap keys) =
      rules.marked (loaded.flatMap keys) :=
    rules.marked_congr fun key => by simp only [List.mem_flatMap, (arranged_perm permutes).mem_iff]
  simp only [gives_remapAll_iff marks, gives_remapAll_iff marks', marked,
    mapM_arranged_iff outcome permutes]
  have moved : ∀ staged : Staged, loaded.mapM outcome = .ok staged →
      Staged.stats name (arranged order staged) = Staged.stats name staged := by
    intro staged done
    have length := ((mapM_ok_iff _ _ _).mp done).length_eq
    exact stats_perm name (arranged_perm (length ▸ permutes))
  constructor
  · rintro ⟨_, ⟨staged, done, rfl⟩, left, rfl, rfl⟩
    exact ⟨_, ⟨staged, done, left, rfl, moved staged done⟩, map_arranged _ _⟩
  · rintro ⟨_, ⟨staged, done, left, rfl, rfl⟩, rfl⟩
    exact ⟨_, ⟨staged, done, rfl⟩, left, (map_arranged _ _).symm, (moved staged done).symm⟩

/-! ## The whole stage -/

private theorem gives_run_iff {table : MappingTable} {entries : List ArchiveEntry}
    {loaded : List Loaded} {hierarchy : Hierarchy} (loads : entries.mapM load = .ok loaded)
    (defines : hierarchyOf loaded = .ok hierarchy) (rules : RuleSet)
    (result : List ArchiveEntry × StageStats) (after : RuleSet) :
    Gives (run table entries) rules result after ↔
      Gives (remapAll table loaded hierarchy) rules result after := by
  have all : loadAll entries = .ok (loaded, hierarchy) := by
    simp only [loadAll, bind_ok_iff, pure_ok_iff]
    exact ⟨loaded, loads, hierarchy, defines, rfl⟩
  rw [Gives, run, ran_bind, all, ran_lift]
  rfl

private theorem loads_of_gives {table : MappingTable} {entries : List ArchiveEntry} {rules : RuleSet}
    {result : List ArchiveEntry × StageStats} {after : RuleSet}
    (gives : Gives (run table entries) rules result after) :
    ∃ loaded, entries.mapM load = .ok loaded := by
  obtain ⟨_, _, all, -⟩ := (gives_bind_iff _ _ _ _ _).mp gives
  rw [Gives, ran_lift] at all
  obtain ⟨loaded, loads, -⟩ := (bind_ok_iff _ _ _).mp (Prod.mk.inj all).1
  exact ⟨loaded, loads⟩

/-- The stage leaves the rules as they were, with more marks in the ledger. -/
theorem marked_of_gives_run {table : MappingTable} {entries : List ArchiveEntry} {rules : RuleSet}
    {result : List ArchiveEntry × StageStats} {after : RuleSet}
    (gives : Gives (run table entries) rules result after) : ∃ keys, after = rules.marked keys := by
  obtain ⟨⟨loaded, hierarchy⟩, _, loads, remaps⟩ := (gives_bind_iff _ _ _ _ _).mp gives
  obtain ⟨-, unchanged⟩ := (gives_lift_iff _ _ _ _).mp loads
  rw [unchanged] at remaps
  choose outcome keys marks using exists_marks_remapEntry ⟨table, hierarchy⟩ rules
  obtain ⟨staged, -, marked, -⟩ := (gives_remapAll_iff marks loaded result.1 result.2 after).mp remaps
  exact ⟨_, marked⟩

/-- If the classes of an archive have different names, its entries may come in any order: the stage
succeeds in one order exactly if it does in the other, gives the same entries in the other order, and
leaves the same counts and the same rules with the same records. -/
theorem run_arranged (table : MappingTable) {entries : List ArchiveEntry}
    (distinct : (classNames entries).Nodup) {order : List Nat}
    (permutes : order.Perm (List.range entries.length)) (rules : RuleSet)
    (output : List ArchiveEntry) (stats : StageStats) (after : RuleSet) :
    Gives (run table (arranged order entries)) rules (output, stats) after ↔
      ∃ original, Gives (run table entries) rules (original, stats) after ∧
        output = arranged order original := by
  by_cases readable : ∃ loaded, entries.mapM load = .ok loaded
  · obtain ⟨loaded, loads⟩ := readable
    have moved := (mapM_arranged_iff load permutes _).mpr ⟨loaded, loads, rfl⟩
    have length := ((mapM_ok_iff _ _ _).mp loads).length_eq
    rw [length] at permutes
    obtain ⟨first, second, defines, defines', same⟩ := hierarchyOf_arranged loads distinct permutes
    simp only [gives_run_iff loads defines, gives_run_iff moved defines']
    exact remapAll_arranged_iff same permutes rules output stats after
  · -- If a class cannot be read, it cannot be in any order.
    constructor
    · intro gives
      obtain ⟨_, traversed⟩ := loads_of_gives gives
      obtain ⟨loaded, loads, -⟩ := (mapM_arranged_iff load permutes _).mp traversed
      exact absurd ⟨loaded, loads⟩ readable
    · rintro ⟨original, gives, -⟩
      exact absurd (loads_of_gives gives) readable

/-- An archive with a class `B`, a text, and the superclass `A` of `B`; both classes have a field `x`. -/
def relatedEntries : List ArchiveEntry :=
  let derived : ClassFile := ⟨0, 52, .ofEntries [.unusable, .utf8 "B", .classRef 1, .utf8 "A",
    .classRef 3, .utf8 "x", .utf8 "I"], ⟨0⟩, 2, 4, [], [⟨⟨0⟩, 5, 6, []⟩], [], []⟩
  let base : ClassFile := ⟨0, 52, .ofEntries [.unusable, .utf8 "A", .classRef 1, .utf8 "x",
    .utf8 "I"], ⟨0⟩, 2, 0, [], [⟨⟨0⟩, 3, 4, []⟩], [], []⟩
  [⟨"B.class", derived.encode.toOption.getD [], false, .epoch⟩, ⟨"notes", [0x2E], false, .epoch⟩,
    ⟨"A.class", base.encode.toOption.getD [], false, .epoch⟩]

/-- A new name for the field where it is declared first. -/
def fieldName : MappingTable := ⟨[⟨.field, "A", "A", some "x", some "y", none, none⟩]⟩

/-- A rule that opens the field of the derived class. -/
def opening : RuleSet :=
  ((RuleSet.loadLine "public B x" ⟨"rules", 1⟩).run.run (.new ⟨[]⟩)).2

theorem run_arranged_relatedEntries :
    (classNames relatedEntries).Nodup ∧ [2, 0, 1].Perm (List.range relatedEntries.length) ∧
      ∃ original stats after, Gives (run fieldName relatedEntries) opening (original, stats) after ∧
        stats.classesChanged = 2 ∧ opening.ledger.broken.length = 1 ∧ after.ledger.broken = [] ∧
        Gives (run fieldName (arranged [2, 0, 1] relatedEntries)) opening
          (arranged [2, 0, 1] original, stats) after := by
  have distinct : (classNames relatedEntries).Nodup := by decide +kernel
  have permutes : [2, 0, 1].Perm (List.range relatedEntries.length) := by decide +kernel
  obtain ⟨original, stats, succeeds, counted⟩ : ∃ original stats,
      (ran (run fieldName relatedEntries) opening).1 = .ok (original, stats) ∧
        stats.classesChanged = 2 := by
    have counted : ((ran (run fieldName relatedEntries) opening).1.toOption.map
        fun result => result.2.classesChanged) = some 2 := by decide +kernel
    obtain ⟨⟨original, stats⟩, succeeds, same⟩ := (toOption_map_eq_some_iff _ _ _).mp counted
    exact ⟨original, stats, succeeds, same⟩
  have gives : Gives (run fieldName relatedEntries) opening (original, stats)
      (ran (run fieldName relatedEntries) opening).2 := Prod.ext succeeds rfl
  refine ⟨distinct, permutes, original, stats, _, gives, counted, by decide +kernel,
    by decide +kernel, ?_⟩
  exact (run_arranged fieldName distinct permutes opening _ stats _).mpr ⟨original, gives, rfl⟩

end JarRemap.Stage.Remap
