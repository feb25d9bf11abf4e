import JarRemap.Fault
import JarRemap.Proofs.Bytes
import JarRemap.Proofs.Outcome

/-!
# What readers accept

A reader is described by the relation between values and the bytes that spell them. The
description is an equivalence, so it says at once that nothing else is accepted and that
everything spelled is. A format is exact if its reader accepts just what its writer writes.
-/

namespace JarRemap

/-- The bytes stand in front of one position and lie behind the other. -/
structure Cursor.Passed (bytes : Bytes) (before after : Cursor) : Prop where
  rest : before.rest = bytes ++ after.rest
  offset : after.offset = before.offset + bytes.length

namespace Cursor

theorem passed_mk (bytes rest rest' : Bytes) (offset offset' : Nat) :
    Passed bytes ⟨offset, rest⟩ ⟨offset', rest'⟩ ↔
      rest = bytes ++ rest' ∧ offset' = offset + bytes.length :=
  ⟨fun passed => ⟨passed.rest, passed.offset⟩, fun passed => ⟨passed.1, passed.2⟩⟩

@[simp] theorem passed_nil (before after : Cursor) : Passed [] before after ↔ after = before := by
  constructor
  · rintro ⟨rest, offset⟩
    cases before
    cases after
    simp_all
  · rintro rfl
    exact ⟨rfl, rfl⟩

theorem passed_append (left right : Bytes) (before after : Cursor) :
    Passed (left ++ right) before after ↔
      ∃ middle, Passed left before middle ∧ Passed right middle after := by
  constructor
  · rintro ⟨rest, offset⟩
    refine ⟨⟨before.offset + left.length, right ++ after.rest⟩, ⟨?_, rfl⟩, ⟨rfl, ?_⟩⟩
    · rw [rest, List.append_assoc]
    · rw [offset, List.length_append, Nat.add_assoc]
  · rintro ⟨middle, first, second⟩
    constructor
    · rw [first.rest, second.rest, List.append_assoc]
    · rw [second.offset, first.offset, List.length_append, Nat.add_assoc]

end Cursor

open Cursor

section Reads

variable {ε α β : Type} {reader : StateT Cursor (Except ε) α} {spells : α → Bytes → Prop}

/-- The reader takes exactly the bytes that spell a value, whatever follows them. -/
def Reads (reader : StateT Cursor (Except ε) α) (spells : α → Bytes → Prop) : Prop :=
  ∀ before value after, reader before = .ok (value, after) ↔
    ∃ bytes, spells value bytes ∧ Passed bytes before after

theorem Reads.congr {other : α → Bytes → Prop} (reads : Reads reader spells)
    (same : ∀ value bytes, spells value bytes ↔ other value bytes) : Reads reader other := by
  intro before value after
  rw [reads before value after]
  simp only [same]

theorem reads_pure (value : α) :
    Reads (pure value : StateT Cursor (Except ε) α) (fun found bytes => found = value ∧ bytes = []) := by
  intro before found after
  change Except.ok (value, before) = .ok (found, after) ↔ _
  rw [Except.ok.injEq, Prod.mk.injEq]
  constructor
  · rintro ⟨rfl, rfl⟩
    exact ⟨[], ⟨rfl, rfl⟩, by simp⟩
  · rintro ⟨bytes, ⟨rfl, rfl⟩, passed⟩
    exact ⟨rfl, ((passed_nil before after).mp passed).symm⟩

/-- One reader after another takes one spelling after another. -/
theorem Reads.bind {next : α → StateT Cursor (Except ε) β} {others : α → β → Bytes → Prop}
    (first : Reads reader spells) (second : ∀ value, Reads (next value) (others value)) :
    Reads (reader >>= next) (fun result bytes =>
      ∃ value left right, spells value left ∧ others value result right ∧ bytes = left ++ right) := by
  intro before result after
  -- Both succeed, and the second one begins where the first one stopped.
  have split : (reader >>= next) before = .ok (result, after) ↔
      ∃ value middle, reader before = .ok (value, middle) ∧
        next value middle = .ok (result, after) := by
    simp only [Bind.bind, StateT.bind, Except.bind]
    cases reader before with
    | error fault => simp
    | ok found =>
      obtain ⟨value, middle⟩ := found
      simp
  rw [split]
  constructor
  · rintro ⟨value, middle, taken, rest⟩
    obtain ⟨left, spelled, passed⟩ := (first before value middle).mp taken
    obtain ⟨right, spelled', passed'⟩ := (second value middle result after).mp rest
    exact ⟨left ++ right, ⟨value, left, right, spelled, spelled', rfl⟩,
      (passed_append left right before after).mpr ⟨middle, passed, passed'⟩⟩
  · rintro ⟨bytes, ⟨value, left, right, spelled, spelled', rfl⟩, passed⟩
    obtain ⟨middle, passed, passed'⟩ := (passed_append left right before after).mp passed
    exact ⟨value, middle, (first before value middle).mpr ⟨left, spelled, passed⟩,
      (second value middle result after).mpr ⟨right, spelled', passed'⟩⟩

theorem Reads.map (reads : Reads reader spells) (change : α → β) :
    Reads (change <$> reader) (fun result bytes => ∃ value, spells value bytes ∧ change value = result) := by
  rw [map_eq_pure_bind]
  refine (reads.bind fun value => reads_pure (change value)).congr fun result bytes => ?_
  constructor
  · rintro ⟨value, left, right, spelled, ⟨rfl, rfl⟩, rfl⟩
    exact ⟨value, by simpa using spelled, rfl⟩
  · rintro ⟨value, spelled, rfl⟩
    exact ⟨value, bytes, [], spelled, ⟨rfl, rfl⟩, by simp⟩

end Reads

/-! ## Numbers and byte strings -/

theorem reads_byte : Reads byte (fun value bytes => bytes = [value]) := by
  intro before value after
  obtain ⟨offset, rest⟩ := before
  obtain ⟨offset', rest'⟩ := after
  constructor
  · intro taken
    cases rest with
    | nil => simp [byte] at taken
    | cons a rest =>
      simp only [byte, Except.ok.injEq, Prod.mk.injEq, Cursor.mk.injEq] at taken
      obtain ⟨rfl, rfl, rfl⟩ := taken
      exact ⟨[a], rfl, rfl, rfl⟩
  · rintro ⟨bytes, rfl, passed⟩
    obtain ⟨rfl, rfl⟩ := (passed_mk _ _ _ _ _).mp passed
    rfl

theorem reads_uint16 : Reads uint16 (fun value bytes => bytes = Bytes.ofUInt16 value) := by
  intro before value after
  obtain ⟨offset, rest⟩ := before
  obtain ⟨offset', rest'⟩ := after
  constructor
  · intro taken
    unfold uint16 at taken
    split at taken
    next a b rest two =>
      simp only [Except.ok.injEq, Prod.mk.injEq, Cursor.mk.injEq] at taken
      obtain ⟨rfl, rfl, rfl⟩ := taken
      exact ⟨_, rfl, by rw [two, Bytes.ofUInt16_toUInt16]; rfl, rfl⟩
    · cases taken
  · rintro ⟨bytes, rfl, passed⟩
    obtain ⟨rfl, rfl⟩ := (passed_mk _ _ _ _ _).mp passed
    simp [uint16, Bytes.ofUInt16, Bytes.toUInt16_bytes]

theorem reads_uint32 : Reads uint32 (fun value bytes => bytes = Bytes.ofUInt32 value) := by
  intro before value after
  obtain ⟨offset, rest⟩ := before
  obtain ⟨offset', rest'⟩ := after
  constructor
  · intro taken
    unfold uint32 at taken
    split at taken
    next a b c d rest four =>
      simp only [Except.ok.injEq, Prod.mk.injEq, Cursor.mk.injEq] at taken
      obtain ⟨rfl, rfl, rfl⟩ := taken
      exact ⟨_, rfl, by rw [four, Bytes.ofUInt32_toUInt32]; rfl, rfl⟩
    · cases taken
  · rintro ⟨bytes, rfl, passed⟩
    obtain ⟨rfl, rfl⟩ := (passed_mk _ _ _ _ _).mp passed
    simp [uint32, Bytes.ofUInt32, Bytes.toUInt32_bytes]

theorem reads_uint64 : Reads uint64 (fun value bytes => bytes = Bytes.ofUInt64 value) := by
  refine (reads_uint32.bind fun high => reads_uint32.bind fun low =>
    reads_pure (Bytes.toUInt64 high low)).congr fun value bytes => ?_
  constructor
  · rintro ⟨high, _, _, rfl, ⟨low, _, _, rfl, ⟨rfl, rfl⟩, rfl⟩, rfl⟩
    rw [Bytes.ofUInt64_toUInt64, List.append_nil]
  · rintro rfl
    exact ⟨_, _, _, rfl, ⟨_, _, _, rfl, ⟨(Bytes.toUInt64_halves value).symm, rfl⟩, rfl⟩,
      by simp [Bytes.ofUInt64]⟩

theorem reads_take (count : Nat) :
    Reads (take count) (fun value bytes => bytes = value ∧ value.length = count) := by
  intro before value after
  obtain ⟨offset, rest⟩ := before
  obtain ⟨offset', rest'⟩ := after
  constructor
  · intro taken
    simp only [take] at taken
    split at taken
    next enough =>
      simp only [Except.ok.injEq, Prod.mk.injEq, Cursor.mk.injEq] at taken
      obtain ⟨rfl, rfl, rfl⟩ := taken
      exact ⟨_, ⟨rfl, enough⟩, by simp, by simp [enough]⟩
    · cases taken
  · rintro ⟨bytes, ⟨rfl, length⟩, passed⟩
    obtain ⟨rfl, rfl⟩ := (passed_mk _ _ _ _ _).mp passed
    simp [take, ← length]

/-! ## Repetition -/

private theorem repeatOnto_ok_iff {α : Type} {item : Reader α} {spells : α → Bytes → Prop}
    (reads : Reads item spells) (count : Nat) (found values : List α) (before after : Cursor) :
    repeatOnto item count found before = .ok (values, after) ↔
      ∃ more parts, values = found.reverse ++ more ∧ more.length = count ∧
        List.Forall₂ spells more parts ∧ Passed parts.flatten before after := by
  -- What was found is collected in front, so the induction is for any such list.
  induction count generalizing found before with
  | zero =>
    constructor
    · intro taken
      simp only [repeatOnto, Except.ok.injEq, Prod.mk.injEq] at taken
      obtain ⟨rfl, rfl⟩ := taken
      exact ⟨[], [], by simp, rfl, .nil, by simp⟩
    · rintro ⟨more, parts, rfl, empty, spelled, passed⟩
      obtain rfl := List.length_eq_zero_iff.mp empty
      cases spelled
      obtain rfl := (passed_nil before after).mp passed
      simp [repeatOnto]
  | succ count ih =>
    simp only [repeatOnto]
    constructor
    · intro taken
      split at taken
      next value middle first =>
        obtain ⟨bytes, spelled, passed⟩ := (reads before value middle).mp first
        obtain ⟨more, parts, rfl, length, others, behind⟩ := (ih _ _).mp taken
        refine ⟨value :: more, bytes :: parts, by simp, by simp [length], .cons spelled others, ?_⟩
        exact (passed_append bytes parts.flatten before after).mpr ⟨middle, passed, behind⟩
      · cases taken
    · rintro ⟨more, parts, rfl, length, spelled, passed⟩
      cases spelled with
      | nil => simp at length
      | @cons value bytes more parts first others =>
        obtain ⟨middle, passed, behind⟩ := (passed_append bytes parts.flatten before after).mp passed
        rw [(reads before value middle).mpr ⟨bytes, first, passed⟩]
        exact (ih _ _).mpr ⟨more, parts, by simp, by simpa using length, others, behind⟩

theorem reads_times {α : Type} {item : Reader α} {spells : α → Bytes → Prop}
    (reads : Reads item spells) (count : Nat) :
    Reads (times count item) (fun values bytes => values.length = count ∧
      ∃ parts, List.Forall₂ spells values parts ∧ bytes = parts.flatten) := by
  intro before values after
  rw [times, repeatOnto_ok_iff reads]
  constructor
  · rintro ⟨more, parts, rfl, length, spelled, passed⟩
    exact ⟨parts.flatten, ⟨length, parts, spelled, rfl⟩, passed⟩
  · rintro ⟨bytes, ⟨length, parts, spelled, rfl⟩, passed⟩
    exact ⟨values, parts, rfl, length, spelled, passed⟩

/-! ## Formats -/

namespace Format

variable {α β : Type}

/-- The reader accepts exactly what the writer writes. -/
def Exact (format : Format α) : Prop :=
  Reads format.read (fun value bytes => format.write value = .ok bytes)

theorem uint16_exact : Exact uint16 :=
  reads_uint16.congr fun value bytes => by simp [uint16, eq_comm]

theorem Exact.imap {format : Format α} (exact : format.Exact) (into : α → β) (back : β → α)
    (there : ∀ value, into (back value) = value) (again : ∀ value, back (into value) = value) :
    (format.imap into back).Exact := by
  refine (Reads.map exact into).congr fun value bytes => ?_
  constructor
  · rintro ⟨inner, written, rfl⟩
    simpa [Format.imap, again] using written
  · intro written
    exact ⟨back value, written, there value⟩

theorem pair_write_iff (first : Format α) (second : Format β) (value : α × β) (bytes : Bytes) :
    (first.pair second).write value = .ok bytes ↔
      ∃ left right, first.write value.1 = .ok left ∧ second.write value.2 = .ok right ∧
        bytes = left ++ right := by
  simp only [Format.pair, bind, Except.bind, pure, Except.pure]
  cases first.write value.1 with
  | error fault => simp
  | ok left =>
    cases second.write value.2 with
    | error fault => simp
    | ok right => simp [eq_comm]

theorem Exact.pair {first : Format α} {second : Format β} (left : first.Exact)
    (right : second.Exact) : (first.pair second).Exact := by
  refine (Reads.bind left fun a => Reads.bind right fun b => reads_pure (a, b)).congr
    fun value bytes => ?_
  rw [pair_write_iff]
  constructor
  · rintro ⟨a, front, _, writes, ⟨b, back, _, writes', ⟨rfl, rfl⟩, rfl⟩, rfl⟩
    exact ⟨front, back, writes, writes', by simp⟩
  · rintro ⟨front, back, writes, writes', rfl⟩
    exact ⟨value.1, front, back, writes, ⟨value.2, back, [], writes', ⟨rfl, rfl⟩, by simp⟩, rfl⟩

theorem writeAll_ok_iff (format : Format α) (values : List α) (bytes : Bytes) :
    format.writeAll values = .ok bytes ↔
      ∃ parts, List.Forall₂ (fun value part => format.write value = .ok part) values parts ∧
        bytes = parts.flatten := by
  simp only [writeAll, ← mapM_ok_iff]
  cases values.mapM format.write with
  | error fault => simp [Functor.map, Except.map]
  | ok parts => simp [Functor.map, Except.map, eq_comm]

theorem count16_ok_iff (name : String) (length : Nat) (count : UInt16) :
    count16 name length = .ok count ↔ length = count.toNat := by
  have bound := count.toNat_lt
  simp only [count16]
  split
  next fits =>
    rw [Except.ok.injEq, ← UInt16.toNat_inj, UInt16.toNat_ofNat', Nat.mod_eq_of_lt (by omega)]
  next many =>
    simp only [reduceCtorEq, false_iff]
    omega

theorem counted_write_iff (name : String) (item : Format α) (values : List α) (bytes : Bytes) :
    (counted name item).write values = .ok bytes ↔
      ∃ count parts, values.length = UInt16.toNat count ∧
        List.Forall₂ (fun value part => item.write value = .ok part) values parts ∧
        bytes = Bytes.ofUInt16 count ++ parts.flatten := by
  simp only [counted, bind, Except.bind, pure, Except.pure, ← count16_ok_iff name]
  cases count16 name values.length with
  | error fault => simp
  | ok count =>
    simp only [Except.ok.injEq]
    cases written : item.writeAll values with
    -- If one item has no spelling, there are no parts for all of them either.
    | error fault =>
      simp only [reduceCtorEq, false_iff]
      rintro ⟨count, parts, rfl, spelled, rfl⟩
      have done := (writeAll_ok_iff item values parts.flatten).mpr ⟨parts, spelled, rfl⟩
      simp [written] at done
    | ok body =>
      obtain ⟨parts, spelled, rfl⟩ := (writeAll_ok_iff item values body).mp written
      constructor
      · intro same
        exact ⟨count, parts, rfl, spelled, by simpa using same.symm⟩
      · rintro ⟨_, others, rfl, spelled', rfl⟩
        have same := (writeAll_ok_iff item values others.flatten).mpr ⟨others, spelled', rfl⟩
        rw [written, Except.ok.injEq] at same
        rw [same]

theorem counted_exact (name : String) {item : Format α} (exact : item.Exact) :
    (counted name item).Exact := by
  refine (reads_uint16.bind fun count => reads_times exact count.toNat).congr fun values bytes => ?_
  rw [counted_write_iff]
  constructor
  · rintro ⟨count, _, _, rfl, ⟨length, parts, spelled, rfl⟩, rfl⟩
    exact ⟨count, parts, length, spelled, rfl⟩
  · rintro ⟨count, parts, length, spelled, rfl⟩
    exact ⟨count, _, _, rfl, ⟨length, parts, spelled, rfl⟩, rfl⟩

theorem block_exact (name : String) : (block name).Exact := by
  refine (reads_uint32.bind fun length => reads_take length.toNat).congr fun body bytes => ?_
  simp only [block]
  constructor
  · rintro ⟨length, _, _, rfl, ⟨rfl, fits⟩, rfl⟩
    -- A length that was read in four bytes is one that fits into them.
    have bound := length.toNat_lt
    rw [if_pos (by omega), fits, UInt32.ofNat_toNat]
  · intro written
    split at written
    next fits =>
      obtain rfl := Except.ok.inj written
      exact ⟨_, _, _, rfl, ⟨rfl, (UInt32.toNat_ofNat_of_lt' (by omega)).symm⟩, rfl⟩
    · cases written

end Format

end JarRemap
