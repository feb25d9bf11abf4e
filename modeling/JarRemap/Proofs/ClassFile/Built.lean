import JarRemap.Proofs.ClassFile.Edit
import JarRemap.Proofs.ClassFile.Format

/-!
# Encoding and decoding classes

A class is encoded to bytes that it is decoded from if its pool is laid out as in a class file and
its names can be read. Both hold of every class that was read or made, and of what edits leave of
it, even those that find no more room in the pool.
-/

namespace JarRemap.ClassFile

open ConstantPool

/-- A class that was made or read, and then edited, with or without success. -/
inductive Built : ClassFile → Prop
  | made {name : String} {superName : Option String} {access : AccessFlags} {file : ClassFile}
      (made : ClassFile.new name superName access = .ok file) : Built file
  | decoded {bytes : Bytes} {file : ClassFile} (read : decode bytes = .ok file) : Built file
  | addInterface {file : ClassFile} (built : Built file) (name : String) :
      Built (ran (addInterface name) file).2
  | addMember {file : ClassFile} (built : Built file) (kind : MemberKind) (access : AccessFlags)
      (name descriptor : String) : Built (ran (addMember kind access name descriptor) file).2
  | setMemberSymbol {file : ClassFile} (built : Built file) (kind : MemberKind) (position : Nat)
      (name descriptor : String) :
      Built (ran (setMemberSymbol kind position name descriptor) file).2
  | utf8Index {file : ClassFile} (built : Built file) (text : String) :
      Built (ran (inPool (utf8Index text)) file).2
  | classIndex {file : ClassFile} (built : Built file) (name : String) :
      Built (ran (inPool (classIndex name)) file).2
  | nameAndTypeIndex {file : ClassFile} (built : Built file) (name descriptor : String) :
      Built (ran (inPool (nameAndTypeIndex name descriptor)) file).2
  | push {file : ClassFile} (built : Built file) {constant : Constant} (plain : constant.Plain) :
      Built (ran (inPool (push constant)) file).2

theorem whole_new {name : String} {superName : Option String} {access : AccessFlags}
    {file : ClassFile} (made : ClassFile.new name superName access = .ok file) : file.Whole := by
  rw [ClassFile.new] at made
  split at made
  next thisClass superClass pool gives =>
    obtain rfl := Except.ok.inj made
    obtain ⟨this, middle, named, rest⟩ := (gives_bind_iff _ _ _ _ _).mp gives
    have sound : Preserved Sound empty middle := named.moved (moves_classIndex name)
    have faithful : Preserved Faithful empty middle := named.moved (moves_classIndex name)
    have reads := classIndex_reads sound_empty.indexed rfl named
    -- The name of the superclass may be interned after that of the class, which it leaves in place.
    cases superName with
    | none =>
      obtain ⟨same, rfl⟩ := (gives_pure_iff _ _ _ _).mp rest
      obtain ⟨rfl, rfl⟩ := Prod.mk.inj same
      exact ⟨sound sound_empty, faithful rfl, ⟨name, reads⟩, fun derived => absurd rfl derived,
        by simp, fun kind => by cases kind <;> simp [members]⟩
    | some superName =>
      obtain ⟨super, last, extended, done⟩ := (gives_bind_iff _ _ _ _ _).mp rest
      obtain ⟨same, rfl⟩ := (gives_pure_iff _ _ _ _).mp done
      obtain ⟨rfl, rfl⟩ := Prod.mk.inj same
      have sound' : Preserved Sound middle pool := extended.moved (moves_classIndex superName)
      have faithful' : Preserved Faithful middle pool := extended.moved (moves_classIndex superName)
      have grown : Extends middle pool := extended.moved (moves_classIndex superName)
      have derives := classIndex_reads (sound sound_empty).indexed (faithful rfl) extended
      exact ⟨sound' (sound sound_empty), faithful' (faithful rfl), ⟨name, grown.className reads⟩,
        fun _ => ⟨superName, derives⟩, by simp, fun kind => by cases kind <;> simp [members]⟩
  · cases made

theorem whole_decoded {bytes : Bytes} {file : ClassFile} (read : decode bytes = .ok file) :
    file.Whole := by
  obtain ⟨⟨_, _, spelled, -⟩, checked⟩ := (decode_ok_iff bytes file).mp read
  obtain ⟨sound, faithful⟩ := sound_of_spelled spelled
  exact ⟨sound, faithful, (checkNames_ok_iff file).mp checked⟩

theorem Built.whole {file : ClassFile} (built : file.Built) : file.Whole := by
  induction built with
  | made made => exact whole_new made
  | decoded read => exact whole_decoded read
  | addInterface _ name whole => exact whole_addInterface name _ whole
  | addMember _ kind access name descriptor whole =>
    exact moves_addMember kind access name descriptor _ whole
  | setMemberSymbol _ kind position name descriptor whole =>
    exact moves_setMemberSymbol_named kind position name descriptor _ whole
  | utf8Index _ text whole => exact whole_inPool (fun _ _ => moves_utf8Index text) _ whole
  | classIndex _ name whole => exact whole_inPool (fun _ _ => moves_classIndex name) _ whole
  | nameAndTypeIndex _ name descriptor whole =>
    exact whole_inPool (fun _ _ => moves_nameAndTypeIndex name descriptor) _ whole
  | push _ plain whole => exact whole_inPool (fun _ _ => Growth.push plain) _ whole

theorem decode_of_encode {file : ClassFile} (sound : file.pool.Sound)
    (resolves : file.Resolves) {bytes : Bytes} (encoded : file.encode = .ok bytes) :
    decode bytes = .ok { file with pool := ofEntries file.pool.entries.toList } := by
  obtain ⟨constants, slots, size, usable⟩ := (sound_iff file.pool).mp sound
  obtain ⟨pool, tail, written, writes, rfl⟩ := (encode_ok_iff file bytes).mp encoded
  have entries : (ofEntries file.pool.entries.toList).entries = file.pool.entries := by
    rw [ofEntries, Array.toArray_toList]
  -- What the pool remembers of its classes is not written.
  have same : file.pool.write = (ofEntries file.pool.entries.toList).write := by
    rw [ConstantPool.write, ConstantPool.write, ConstantPool.count, ConstantPool.count, entries]
  have counted : (layout constants).length = (UInt16.ofNat (layout constants).length).toNat := by
    rw [UInt16.toNat_ofNat', Nat.mod_eq_of_lt (by omega)]
  refine (decode_ok_iff _ _).mpr ⟨⟨pool, tail, ?_, writes, rfl⟩, (checkNames_ok_iff _).mpr ?_⟩
  · rw [same, slots] at written
    rw [slots]
    exact spelled_of_write_layout counted usable written
  · refine resolves.grown ⟨fun slot entry found => ?_, ?_⟩
    · rw [entries]
      exact found
    · rw [entries]
      exact Nat.le_max_left _ _

/-- A class with a pool that is laid out as in a class file, and with all its names, is decoded from
the bytes that it is encoded to, and every class that was made or read and then edited is one. -/
theorem decode_encode (file : ClassFile) :
    (file.pool.Sound → file.Resolves → ∀ bytes, file.encode = .ok bytes →
      decode bytes = .ok { file with pool := ofEntries file.pool.entries.toList }) ∧
    (file.Built → file.pool.Sound ∧ file.Resolves ∧
      ofEntries file.pool.entries.toList = file.pool) := by
  constructor
  · exact fun sound resolves bytes => decode_of_encode sound resolves
  · intro built
    obtain ⟨sound, faithful, resolves⟩ := built.whole
    refine ⟨sound, resolves, ?_⟩
    rw [ofEntries, Array.toArray_toList, ← faithful]

/-- A class `A` with an attribute `X`, an access bit that has no name, and a text that is no string. -/
def attributed : Bytes :=
  [0xCA, 0xFE, 0xBA, 0xBE, 0, 0, 0, 52, 0, 5, 1, 0, 1, 0x41, 7, 0, 1, 1, 0, 1, 0x58, 1, 0, 3, 0xED, 0xA0,
    0x80, 0x80, 0x21, 0, 2, 0, 0, 0, 0, 0, 0, 0, 0, 0, 1, 0, 3, 0, 0, 0, 2, 7, 8]

/-- The class with a long, an interface, a method, and a field that was given another name. -/
def edited : ClassFile :=
  ⟨0, 52, .ofEntries [.unusable, .utf8 "A", .classRef 1, .utf8 "X", .rawUtf8 [0xED, 0xA0, 0x80], .long 7,
    .unusable, .utf8 "I", .classRef 7, .utf8 "x", .utf8 "J", .utf8 "m", .utf8 "()V", .utf8 "y"], ⟨0x8021⟩,
    2, 0, [8], [⟨⟨2⟩, 13, 10, []⟩], [⟨⟨9⟩, 11, 12, []⟩], [⟨3, [7, 8]⟩]⟩

private theorem built_edited : Built edited := by
  have read : decode attributed = .ok ⟨0, 52, .ofEntries [.unusable, .utf8 "A", .classRef 1, .utf8 "X",
      .rawUtf8 [0xED, 0xA0, 0x80]], ⟨0x8021⟩, 2, 0, [], [], [], [⟨3, [7, 8]⟩]⟩ := by decide +kernel
  have plain : (Constant.long 7).Plain := by simp [Constant.Plain]
  have built := Built.setMemberSymbol (.addMember (.addMember (.addInterface (.push (.decoded read) plain)
    "I") .field ⟨2⟩ "x" "J") .method ⟨9⟩ "m" "()V") .field 0 "y" "J"
  refine Eq.mp (congrArg Built ?_) built
  decide +kernel

theorem decode_encode_edited :
    edited.Built ∧ ∃ bytes, edited.encode = .ok bytes ∧ decode bytes = .ok edited := by
  have encoded : edited.encode = .ok [0xCA, 0xFE, 0xBA, 0xBE, 0, 0, 0, 52, 0, 14, 1, 0, 1, 0x41, 7, 0, 1, 1,
      0, 1, 0x58, 1, 0, 3, 0xED, 0xA0, 0x80, 5, 0, 0, 0, 0, 0, 0, 0, 7, 1, 0, 1, 0x49, 7, 0, 7, 1, 0, 1,
      0x78, 1, 0, 1, 0x4A, 1, 0, 1, 0x6D, 1, 0, 3, 0x28, 0x29, 0x56, 1, 0, 1, 0x79, 0x80, 0x21, 0, 2, 0, 0,
      0, 1, 0, 8, 0, 1, 0, 2, 0, 13, 0, 10, 0, 0, 0, 1, 0, 9, 0, 11, 0, 12, 0, 0, 0, 1, 0, 3, 0, 0, 0, 2, 7,
      8] := by decide +kernel
  obtain ⟨sound, resolves, same⟩ := (decode_encode edited).2 built_edited
  have read := (decode_encode edited).1 sound resolves _ encoded
  rw [same] at read
  exact ⟨built_edited, _, encoded, read⟩

end JarRemap.ClassFile
