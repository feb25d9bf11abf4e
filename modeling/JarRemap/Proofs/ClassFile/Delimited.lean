import JarRemap.Proofs.ClassFile.Format

/-!
# Where a class file ends

A class file says where it ends. If it stops earlier, reading it runs out of bytes before it comes upon
anything else that is wrong, and if it goes on, the bytes behind its end are counted and refused.
-/

namespace JarRemap

/-- The position with more bytes behind those that are left. -/
def Cursor.extend (cursor : Cursor) (more : Bytes) : Cursor := ⟨cursor.offset, cursor.rest ++ more⟩

open Cursor

section

variable {α β : Type}

/-- More bytes at the end change nothing for the reader: what was read is read again, and what was wrong
is wrong again, unless it was that there were too few bytes. -/
structure Settled (reader : FaultReader α) : Prop where
  read : ∀ {before after value}, reader before = .ok (value, after) → ∀ more,
    reader (before.extend more) = .ok (value, after.extend more)
  wrong : ∀ {before fault}, reader before = .error fault → (∀ shortage, fault ≠ .truncated shortage) →
    ∀ more, reader (before.extend more) = .error fault

/-- A reader that can only run out of bytes is settled if it takes just the bytes that it reads. -/
theorem settled_orFault {reader : Reader α} {spells : α → Bytes → Prop} (reads : Reads reader spells) :
    Settled (orFault reader) where
  read taken more := by
    have found := reads_orFault reads
    obtain ⟨bytes, spelled, passed⟩ := (found _ _ _).mp taken
    apply (found _ _ _).mpr
    refine ⟨bytes, spelled, ?_, passed.offset⟩
    rw [extend, extend, passed.rest, List.append_assoc]
  wrong {before fault} failed other more := by
    rw [orFault] at failed
    cases found : reader before with
    | error shortage =>
      rw [found] at failed
      exact absurd (Except.error.inj failed).symm (other shortage)
    | ok pair => simp [found, Except.mapError] at failed

theorem settled_pure (value : α) : Settled (pure value : FaultReader α) where
  read taken more := by
    obtain ⟨rfl, rfl⟩ := Prod.mk.inj (Except.ok.inj taken)
    rfl
  wrong failed := by cases failed

theorem settled_throw (fault : Fault) : Settled (throw fault : FaultReader α) where
  read taken := by cases taken
  wrong failed _ _ := by
    obtain rfl := Except.error.inj failed
    rfl

theorem settled_lift (outcome : Except Fault α) : Settled (liftM outcome : FaultReader α) := by
  cases outcome with
  | error fault => exact settled_throw fault
  | ok value => exact settled_pure value

theorem Settled.bind {reader : FaultReader α} {next : α → FaultReader β} (first : Settled reader)
    (second : ∀ value, Settled (next value)) : Settled (reader >>= next) where
  read {before after result} taken more := by
    simp only [Bind.bind, StateT.bind, Except.bind] at taken ⊢
    cases found : reader before with
    | error fault => simp [found] at taken
    | ok pair =>
      rw [found] at taken
      rw [first.read found more]
      exact (second pair.1).read taken more
  wrong {before fault} failed other more := by
    simp only [Bind.bind, StateT.bind, Except.bind] at failed ⊢
    cases found : reader before with
    | error earlier =>
      rw [found] at failed
      obtain rfl := Except.error.inj failed
      rw [first.wrong found other more]
    | ok pair =>
      -- The fault is met behind the bytes that are read first, and these are read as before.
      rw [found] at failed
      rw [first.read found more]
      exact (second pair.1).wrong failed other more

end

/-! ## The constant pool -/

namespace Constant

theorem settled_utf8 : Settled readUtf8 :=
  (settled_orFault reads_uint16).bind fun length =>
    (settled_orFault (reads_take length.toNat)).bind fun bytes => settled_lift (ofUtf8Bytes bytes)

theorem settled_index (build : Index → Constant) : Settled (orFault (build <$> uint16)) :=
  settled_orFault (reads_uint16.map build)

theorem settled_pair (build : Index → Index → Constant) : Settled (readPair build) :=
  settled_orFault (reads_uint16.bind fun first => reads_uint16.bind fun second =>
    reads_pure (build first second))

theorem settled_body (tag : UInt8) (index : Index) : Settled (readBody tag index) := by
  -- One case for each tag, in the order of the reader.
  unfold readBody
  split
  · exact settled_utf8
  · exact settled_orFault (reads_uint32.map _)
  · exact settled_orFault (reads_uint32.map _)
  · exact settled_orFault (reads_uint64.map _)
  · exact settled_orFault (reads_uint64.map _)
  · exact settled_index _
  · exact settled_index _
  · exact settled_pair _
  · exact settled_pair _
  · exact settled_pair _
  · exact settled_pair _
  · exact settled_orFault (reads_byte.bind fun kind => reads_uint16.bind fun reference =>
      reads_pure (methodHandle kind reference))
  · exact settled_index _
  · exact settled_pair _
  · exact settled_pair _
  · exact settled_index _
  · exact settled_index _
  · exact settled_throw _

theorem settled_constant (index : Index) : Settled (Constant.read index) :=
  (settled_orFault reads_byte).bind fun tag => settled_body tag index

end Constant

namespace ConstantPool

theorem settled_readOnto (count fuel : Nat) (entries : Array Constant) :
    Settled (readOnto count fuel entries) := by
  -- Whether another constant is read depends on the slots alone, and not on the bytes that are left.
  induction fuel generalizing entries with
  | zero => exact settled_pure entries
  | succ fuel ih =>
    by_cases lacking : entries.size < count
    · have step : readOnto count (fuel + 1) entries = (do
          let constant ← Constant.read (UInt16.ofNat entries.size)
          readOnto count fuel (entries ++ constant.slots)) := by
        funext cursor
        simp only [readOnto, if_pos lacking, Bind.bind, StateT.bind, Except.bind]
        cases Constant.read (UInt16.ofNat entries.size) cursor <;> rfl
      rw [step]
      exact (Constant.settled_constant _).bind fun constant => ih (entries ++ constant.slots)
    · have full : readOnto count (fuel + 1) entries = pure entries := by
        funext cursor
        simp only [readOnto, if_neg lacking]
        rfl
      rw [full]
      exact settled_pure entries

theorem settled_pool : Settled ConstantPool.read := by
  refine (settled_orFault reads_uint16).bind fun count => ?_
  refine (settled_readOnto count.toNat count.toNat #[.unusable]).bind fun entries => ?_
  split
  · exact settled_pure _
  · exact settled_throw _

end ConstantPool

/-! ## The class -/

namespace ClassFile

theorem settled_magic : Settled readMagic := by
  refine (settled_orFault reads_uint32).bind fun found => ?_
  split
  · exact settled_pure _
  · exact settled_throw _

theorem settled_parts : Settled readParts :=
  settled_magic.bind fun _ => (settled_orFault reads_uint16).bind fun minor =>
    (settled_orFault reads_uint16).bind fun major => ConstantPool.settled_pool.bind fun pool =>
      (settled_orFault Tail.format_exact).bind fun tail => settled_pure (ofParts minor major pool tail)

/-- The parts of a class take all bytes of its file. -/
theorem parts_of_decode {bytes : Bytes} {file : ClassFile} (decoded : decode bytes = .ok file) :
    readParts (start bytes) = .ok (file, ⟨bytes.length, []⟩) := by
  have spelled := ((decode_ok_iff bytes file).mp decoded).1
  apply (reads_parts _ _ _).mpr
  exact ⟨bytes, spelled, by simp [start], by simp [start]⟩

/-- A class file is accepted in full only. If it is cut off anywhere, it has too few bytes, and if it goes
on, the bytes behind its end are counted. -/
theorem decode_delimited {bytes : Bytes} {file : ClassFile} (decoded : decode bytes = .ok file) :
    (∀ front, front <+: bytes → front ≠ bytes →
      ∃ shortage, decode front = .error (.truncated shortage)) ∧
    ∀ more, more ≠ [] → decode (bytes ++ more) = .error (.trailing more.length) := by
  have whole := parts_of_decode decoded
  constructor
  · rintro front ⟨back, rfl⟩ proper
    have cut : back ≠ [] := by
      rintro rfl
      exact proper (List.append_nil front).symm
    cases found : readParts (start front) with
    | error fault =>
      have failed : decode front = .error fault := by rw [decode, found]; rfl
      by_cases short : ∃ shortage, fault = .truncated shortage
      · obtain ⟨shortage, rfl⟩ := short
        exact ⟨shortage, failed⟩
      · -- Anything else that is wrong would be wrong with the whole file too.
        have again := settled_parts.wrong found (fun shortage same => short ⟨shortage, same⟩) back
        cases again.symm.trans whole
    | ok pair =>
      -- What can be read in full leaves the bytes that were cut off, but none are left.
      have again := settled_parts.read found back
      have none_left := congrArg Cursor.rest (Prod.mk.inj (Except.ok.inj (again.symm.trans whole))).2
      exact absurd (List.append_eq_nil_iff.mp none_left).2 cut
  · intro more some_left
    have again : readParts (start (bytes ++ more)) = .ok (file, ⟨bytes.length, more⟩) :=
      settled_parts.read whole more
    have left : (!more.isEmpty) = true := by simpa using some_left
    rw [decode, again]
    simp [bind, Except.bind, left, throw, throwThe, MonadExceptOf.throw]

/-- The file of a class is cut within its name, cut before its last byte, and continued. -/
theorem decode_delimited_overlong :
    decode overlong = .ok bare ∧
      (∃ shortage, decode (overlong.take 14) = .error (.truncated shortage)) ∧
      (∃ shortage, decode overlong.dropLast = .error (.truncated shortage)) ∧
      decode (overlong ++ [0, 0]) = .error (.trailing 2) := by
  have decoded : decode overlong = .ok bare := by decide +kernel
  obtain ⟨shorter, longer⟩ := decode_delimited decoded
  refine ⟨decoded, shorter _ (List.take_prefix _ _) ?_, shorter _ (List.dropLast_prefix _) ?_,
    longer [0, 0] (by decide)⟩
  · decide
  · decide

end ClassFile

end JarRemap
