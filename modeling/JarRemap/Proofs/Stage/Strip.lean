import JarRemap.Proofs.Stage.Entries

/-!
# What stripping leaves

Stripping takes one mark off the members of ordinary classes and leaves everything else as it is. What it
writes is read as what it made, so whether a class is ordinary does not change, and stripping an
archive once more changes not a byte.
-/

namespace JarRemap

open ClassFile

namespace Synthetic

/-- A member as it was, except that the bit that marks it is not set. -/
structure Unmarked (old new : Member) : Prop where
  access : new.access.bits = old.access.bits &&& 0xEFFF
  name : new.name = old.name
  descriptor : new.descriptor = old.descriptor
  attributes : new.attributes = old.attributes

/-- The class is neither synthetic itself nor an enum. -/
structure Ordinary (file : ClassFile) : Prop where
  visible : file.access.contains .accSynthetic = false
  unflagged : file.access.contains .accEnum = false
  derived : file.superName ≠ .ok (some enumBase)

/-- The members have lost their marks, and nothing else is different. -/
structure Cleared (old new : ClassFile) : Prop where
  fields : List.Forall₂ Unmarked old.fields new.fields
  methods : List.Forall₂ Unmarked old.methods new.methods
  others : new = { old with fields := new.fields, methods := new.methods }

/-- What stripping makes of a class. -/
structure Stripped (old new : ClassFile) : Prop where
  cleared : Ordinary old → Cleared old new
  spared : ¬ Ordinary old → new = old

/-! ## Members -/

theorem unmarked_unmark (member : Member) : Unmarked member (unmark member) :=
  ⟨rfl, rfl, rfl, rfl⟩

theorem hasMark_unmark (member : Member) : hasMark (unmark member) = false := by
  have masked : (member.access.bits &&& 0xEFFF) &&& 0x1000 = 0 := by
    rw [UInt16.and_assoc]
    exact UInt16.and_zero
  change ((member.access.bits &&& 0xEFFF) &&& 0x1000 == 0x1000) = false
  rw [masked]
  decide

theorem unmark_unmark (member : Member) : unmark (unmark member) = unmark member := by
  have masked : (member.access.bits &&& 0xEFFF) &&& 0xEFFF = member.access.bits &&& 0xEFFF := by
    rw [UInt16.and_assoc, UInt16.and_self]
  change (⟨⟨(member.access.bits &&& 0xEFFF) &&& 0xEFFF⟩, _, _, _⟩ : Member) = _
  rw [masked]
  rfl

theorem forall₂_unmark (members : List Member) : List.Forall₂ Unmarked members (members.map unmark) :=
  List.forall₂_map_right_iff.mpr (List.forall₂_same.mpr fun member _ => unmarked_unmark member)

/-! ## Classes -/

variable {file stripped : ClassFile} {changed : Bool}

theorem cleared_unmarkMembers (file : ClassFile) : Cleared file (unmarkMembers file) :=
  ⟨forall₂_unmark file.fields, forall₂_unmark file.methods, rfl⟩

theorem unmarkMembers_again (file : ClassFile) :
    unmarkMembers (unmarkMembers file) = unmarkMembers file := by
  have twice : unmark ∘ unmark = unmark := funext unmark_unmark
  simp [unmarkMembers, twice]

theorem isEnum_iff : file.isEnum = .ok true ↔
    file.access.contains .accEnum = true ∨ file.superName = .ok (some enumBase) := by
  rw [isEnum]
  split
  next flagged => simp [flagged]
  next plain =>
    cases file.superName with
    | error fault => simp [plain, Functor.map, Except.map]
    | ok name => simp [plain, Functor.map, Except.map]

theorem ordinary_iff {spared : Bool} (told : spares file = .ok spared) :
    Ordinary file ↔ spared = false := by
  rw [spares] at told
  split at told
  next synthetic =>
    obtain rfl := Except.ok.inj told
    refine iff_of_false (fun plain => ?_) Bool.noConfusion
    exact Bool.false_ne_true (plain.visible.symm.trans synthetic)
  next visible =>
    -- Only a class that is not synthetic is asked whether it is an enum.
    have enum : spared = true ↔
        file.access.contains .accEnum = true ∨ file.superName = .ok (some enumBase) := by
      rw [← isEnum_iff, told, Except.ok.injEq]
    rw [← Bool.not_eq_true spared, enum, not_or, Bool.not_eq_true]
    constructor
    · intro plain
      exact ⟨plain.unflagged, plain.derived⟩
    · rintro ⟨unflagged, derived⟩
      exact ⟨Bool.eq_false_iff.mpr visible, unflagged, derived⟩

theorem stripped_of_strip (strips : strip file = .ok (stripped, changed)) : Stripped file stripped := by
  obtain ⟨told, rfl, -⟩ | ⟨told, rfl, -⟩ := strip_cases strips
  · have special := (ordinary_iff told).not.mpr Bool.noConfusion
    exact ⟨fun plain => absurd plain special, fun _ => rfl⟩
  · have plain := (ordinary_iff told).mpr rfl
    exact ⟨fun _ => cleared_unmarkMembers file, fun special => absurd plain special⟩

theorem strip_again (strips : strip file = .ok (stripped, changed)) :
    strip stripped = .ok (stripped, false) := by
  obtain ⟨-, rfl, rfl⟩ | ⟨told, rfl, -⟩ := strip_cases strips
  · exact strips
  · -- What the decision depends on is the same, and there is no mark left to take off.
    have told' : spares (unmarkMembers file) = .ok false := told
    have none_left : marked (unmarkMembers file) = false := by
      simp [marked, unmarkMembers, hasMark_unmark]
    rw [strip_eq, told', none_left, unmarkMembers_again]
    rfl

/-- A class that was read, stripped and written is read as it was stripped. -/
theorem decode_stripped {bytes written : Bytes} (read : decode bytes = .ok file)
    (strips : strip file = .ok (stripped, changed)) (encoded : stripped.encode = .ok written) :
    decode written = .ok stripped := by
  have whole := whole_decoded read
  have writable := (unrenamed_of_strip strips).writable ⟨whole.sound, whole.resolves⟩
  have pool : stripped.pool = file.pool := by
    obtain ⟨change, rfl⟩ := exists_withAccess strips
    rfl
  have same : ConstantPool.ofEntries stripped.pool.entries.toList = stripped.pool := by
    rw [pool, ConstantPool.ofEntries, Array.toArray_toList, ← whole.faithful]
  have again := decode_of_encode writable.sound writable.resolves encoded
  rwa [same] at again

end Synthetic

namespace ArchiveEntry

/-- What stripping makes of an entry. -/
structure Stripped (old new : ArchiveEntry) : Prop where
  name : new.name = old.name
  isDirectory : new.isDirectory = old.isDirectory
  modified : new.modified = old.modified
  copied : old.isDirectory = true ∨ old.isMetadata = true ∨ old.isClass = false → new.data = old.data
  decoded : old.isClass = true → old.isMetadata = false → ∃ before after,
    decode old.data = .ok before ∧ decode new.data = .ok after ∧ Synthetic.Stripped before after

end ArchiveEntry

namespace Stage.Strip

open Failure (ofFault_ok_iff)
open ArchiveEntry (changeClass)

variable {entry made : ArchiveEntry} {fate : EntryFate}

theorem stripEntry_copies (copies : (entry.isMetadata || !entry.isClass) = true) :
    stripEntry entry = .ok (entry, .copied) := by
  rw [stripEntry, if_pos copies]

/-- A class is stripped by what becomes of it between reading and writing. -/
theorem stripEntry_decodes (decodes : ¬ (entry.isMetadata || !entry.isClass) = true) :
    stripEntry entry = .ok (made, fate) ↔ ∃ file stripped changed data, decode entry.data = .ok file ∧
      Synthetic.strip file = .ok (stripped, changed) ∧ stripped.encode = .ok data ∧
      made = { entry with data := data } ∧ fate = .ofChange changed := by
  rw [stripEntry, if_neg decodes]
  simp only [changeClass, bind_ok_iff, pure_ok_iff, ofFault_ok_iff, Prod.mk.injEq, Prod.exists]
  constructor
  · rintro ⟨file, read, stripped, changed, strips, data, encoded, rfl, rfl⟩
    exact ⟨file, stripped, changed, data, read, strips, encoded, rfl, rfl⟩
  · rintro ⟨file, stripped, changed, data, read, strips, encoded, rfl, rfl⟩
    exact ⟨file, read, stripped, changed, strips, data, encoded, rfl, rfl⟩

theorem stripped_of_stripEntry (strips : stripEntry entry = .ok (made, fate)) : entry.Stripped made := by
  by_cases copies : (entry.isMetadata || !entry.isClass) = true
  · obtain ⟨rfl, -⟩ := Prod.mk.inj (Except.ok.inj ((stripEntry_copies copies).symm.trans strips))
    refine ⟨rfl, rfl, rfl, fun _ => rfl, fun isClass plain => ?_⟩
    simp [isClass, plain] at copies
  · obtain ⟨file, stripped, changed, data, read, classStrips, encoded, rfl, -⟩ :=
      (stripEntry_decodes copies).mp strips
    refine ⟨rfl, rfl, rfl, fun other => ?_, fun _ _ => ⟨file, stripped, read, ?_, ?_⟩⟩
    · -- A directory is no class, so none of the three is left.
      simp only [ArchiveEntry.isClass, Bool.or_eq_true, not_or] at copies other
      simp_all
    · exact Synthetic.decode_stripped read classStrips encoded
    · exact Synthetic.stripped_of_strip classStrips

/-- An entry that was stripped is left alone. -/
theorem stripEntry_again (strips : stripEntry entry = .ok (made, fate)) :
    ∃ again, stripEntry made = .ok (made, again) ∧ again ≠ .changed := by
  by_cases copies : (entry.isMetadata || !entry.isClass) = true
  · obtain ⟨rfl, -⟩ := Prod.mk.inj (Except.ok.inj ((stripEntry_copies copies).symm.trans strips))
    exact ⟨.copied, stripEntry_copies copies, nofun⟩
  · obtain ⟨file, stripped, changed, data, read, classStrips, encoded, rfl, -⟩ :=
      (stripEntry_decodes copies).mp strips
    have decodes : ¬ (({ entry with data := data } : ArchiveEntry).isMetadata ||
        !({ entry with data := data } : ArchiveEntry).isClass) = true := copies
    refine ⟨.kept, (stripEntry_decodes decodes).mpr ?_, nofun⟩
    exact ⟨stripped, stripped, false, data, Synthetic.decode_stripped read classStrips encoded,
      Synthetic.strip_again classStrips, encoded, rfl, rfl⟩

theorem run_ok_iff {entries output : List ArchiveEntry} {stats : StageStats} :
    run (.ofEntries entries) = .ok (output, stats) ↔
      ∃ staged, List.Forall₂ (fun entry made => stripEntry entry = .ok made) entries staged ∧
        (output, stats) = Staged.counted name staged := by
  rw [run, OpenArchive.forEntries, OpenArchive.ofEntries, List.mapM_map]
  change Staged.counted name <$> entries.mapM stripEntry = _ ↔ _
  simp only [← mapM_ok_iff]
  cases entries.mapM stripEntry with
  | error failure => simp [Functor.map, Except.map]
  | ok staged => simp [Functor.map, Except.map, eq_comm]

/-- A second stage over what the first one has made changes no class. -/
theorem staged_again {entries : List ArchiveEntry} {staged : Staged}
    (strips : List.Forall₂ (fun entry made => stripEntry entry = .ok made) entries staged) :
    ∃ again : Staged, List.Forall₂ (fun entry made => stripEntry entry = .ok made)
        (staged.map Prod.fst) again ∧
      again.map Prod.fst = staged.map Prod.fst ∧ .changed ∉ again.map Prod.snd := by
  induction strips with
  | nil => exact ⟨[], .nil, rfl, List.not_mem_nil⟩
  | @cons entry made entries staged first _ ih =>
    obtain ⟨fate, once, idle⟩ := stripEntry_again first
    obtain ⟨again, others, same, idle'⟩ := ih
    refine ⟨(made.1, fate) :: again, .cons once others, ?_, ?_⟩
    · simp [same]
    · rw [List.map_cons, List.mem_cons, not_or]
      exact ⟨idle.symm, idle'⟩

/-- An archive that can be stripped keeps its entries in order, with their names, kinds and times. Only
classes outside the metadata tree are decoded: the members of ordinary ones lose their marks, and all
others come out as they were. To strip the archive again is to copy it. -/
theorem run_strips {entries output : List ArchiveEntry} {stats : StageStats}
    (runs : run (.ofEntries entries) = .ok (output, stats)) :
    List.Forall₂ ArchiveEntry.Stripped entries output ∧
      ∃ again, run (.ofEntries output) = .ok (output, again) ∧ again.classesChanged = 0 := by
  obtain ⟨staged, strips, counted⟩ := run_ok_iff.mp runs
  obtain ⟨rfl, rfl⟩ := Prod.mk.inj counted
  refine ⟨List.forall₂_map_right_iff.mpr (strips.imp fun _ _ => stripped_of_stripEntry), ?_⟩
  obtain ⟨again, strips', same, idle⟩ := staged_again strips
  refine ⟨Staged.stats name again, run_ok_iff.mpr ⟨again, strips', ?_⟩, ?_⟩
  · rw [Staged.counted, same]
  · exact List.count_eq_zero.mpr idle

/-- A class with a marked field and one name spelled with a group too long; an enum with a marked field;
a class in the metadata tree; and a directory. -/
def sampleEntries : List ArchiveEntry :=
  let marked (access superClass : UInt8) : Bytes :=
    [0xCA, 0xFE, 0xBA, 0xBE, 0, 0, 0, 52, 0, 6, 1, 0, 2, 0xC1, 0x81, 7, 0, 1, 1, 0, 14] ++
      enumBase.toUTF8.toList ++ [7, 0, 3, 1, 0, 1, 0x49, access, 0, 0, 2, 0, superClass, 0, 0, 0, 1,
        0x10, 0x02, 0, 5, 0, 5, 0, 0, 0, 0, 0, 0]
  [⟨"A.class", marked 0 0, false, .epoch⟩, ⟨"E.class", marked 0 4, false, .epoch⟩,
    ⟨"META-INF/A.class", marked 0 0, false, .epoch⟩, ⟨"d/", [], true, .epoch⟩]

theorem run_strips_sample : ∃ output stats,
    run (.ofEntries sampleEntries) = .ok (output, stats) ∧ stats.classesChanged = 1 ∧
      List.Forall₂ ArchiveEntry.Stripped sampleEntries output ∧
      ∃ again, run (.ofEntries output) = .ok (output, again) ∧ again.classesChanged = 0 := by
  have told : (run (.ofEntries sampleEntries)).toOption.map (·.2.classesChanged) = some 1 := by
    decide +kernel
  obtain ⟨⟨output, stats⟩, runs, changed⟩ := (toOption_map_eq_some_iff _ _ _).mp told
  exact ⟨output, stats, runs, changed, run_strips runs⟩

end Stage.Strip

end JarRemap
