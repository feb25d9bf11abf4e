import JarRemap.Proofs.ConstantPool.History

/-!
# Asking for classes

A class is found under the name that it had first, and a rename does not change that. So what is
returned for a name has this name unless it was renamed before.
-/

namespace JarRemap

/-- The class entry that a call has renamed, with its new name. -/
def PoolCall.renamed : PoolCall → Except Fault Unit → List (Index × String)
  | rename index (.class_ name), .ok () => [(index, name)]
  | _, _ => []

namespace ConstantPool

/-- The renamed class entries with the names they got, the latest first. -/
def renamedBy : List PoolCall → ConstantPool → List (Index × String)
  | [], _ => []
  | call :: calls, pool => renamedBy calls (call.after pool) ++ call.renamed (call.outcome pool)

/-- A class entry that the pool remembers is as it was appended, or has the name it was last given. -/
structure Remembers (renamed : List (Index × String)) (pool : ConstantPool) : Prop where
  entry : ∀ {text slot}, (text, slot) ∈ pool.classes → renamed.lookup slot = none →
    pool.entries[slot.toNat]? = some (.classRef text)
  named : ∀ {slot last}, renamed.lookup slot = some last → pool.className slot = .ok last

private theorem Remembers.pushed {renamed : List (Index × String)} {old new : ConstantPool}
    (remembers : Remembers renamed old) (pushed : Pushed old new) : Remembers renamed new := by
  obtain ⟨constant, usable, room, rfl⟩ := pushed
  have grown := extends_appended room
  refine ⟨fun {text slot} member unnamed => ?_, fun found => grown.className (remembers.named found)⟩
  by_cases known : (text, slot) ∈ old.classes
  · exact grown.entry _ _ (remembers.entry known unnamed)
  · -- The only class that was not known before is the constant that was appended.
    cases constant <;> try exact absurd member known
    next name =>
      rcases Array.mem_push.mp member with member | same
      · exact absurd member known
      · obtain ⟨rfl, rfl⟩ := Prod.mk.inj same
        exact pushed_entry ((gives_push_iff _ _ _ _).mpr ⟨room, rfl, rfl⟩)

private theorem Remembers.grows {renamed : List (Index × String)} {old new : ConstantPool}
    (remembers : Remembers renamed old) (grows : Grows old new) : Remembers renamed new := by
  induction grows with
  | refl => exact remembers
  | tail _ pushed ih => exact ih.pushed pushed

private theorem className_withEntry {pool : ConstantPool} {index slot : Index} {old : Constant}
    (new : Constant) (here : pool.entries[index.toNat]? = some old) (movable : Movable old)
    (different : slot ≠ index) {name : String} (named : pool.className slot = .ok name) :
    (pool.withEntry index new).className slot = .ok name := by
  obtain ⟨text, found, read⟩ := (className_ok_iff _ _ _).mp named
  refine (className_ok_iff _ _ _).mpr ⟨text, ?_, (withEntry_keeps new here movable).utf8 read⟩
  rw [lookup_ok_iff] at found ⊢
  rw [withEntry_other fun same => different (UInt16.toNat_inj.mp same)]
  exact found

/-- Another constant than a class is pointed elsewhere. -/
private theorem Remembers.withEntry {renamed : List (Index × String)} {pool : ConstantPool}
    (remembers : Remembers renamed pool) {index : Index} {old : Constant} (new : Constant)
    (here : pool.entries[index.toNat]? = some old) (movable : Movable old)
    (other : ∀ text, old ≠ .classRef text) : Remembers renamed (pool.withEntry index new) := by
  -- No slot of a class is the one that is changed.
  have apart : ∀ {slot : Index} {text}, pool.entries[slot.toNat]? = some (.classRef text) →
      slot ≠ index := by
    rintro slot text found rfl
    exact other text (Option.some.inj (here.symm.trans found))
  constructor
  · intro text slot member unnamed
    have found := remembers.entry member unnamed
    rw [withEntry_other fun same => apart found (UInt16.toNat_inj.mp same)]
    exact found
  · intro slot last found
    have named := remembers.named found
    obtain ⟨text, entry, -⟩ := (className_ok_iff _ _ _).mp named
    exact className_withEntry new here movable (apart ((lookup_ok_iff _ _ _).mp entry).1) named

private theorem Remembers.renamed {renamed : List (Index × String)} {pool : ConstantPool}
    (remembers : Remembers renamed pool) {index : Index} {old new : Constant} {name : String}
    (here : pool.entries[index.toNat]? = some old) (movable : Movable old)
    (done : PoolRename.Done (.class_ name) pool old new) :
    Remembers ((index, name) :: renamed) (pool.withEntry index new) := by
  constructor
  · -- The renamed slot is the last one in the list now, and all others are found as before.
    intro text slot member unnamed
    rw [List.lookup_cons] at unnamed
    split at unnamed
    · cases unnamed
    next different =>
      have different := beq_eq_false_iff_ne.mp different
      rw [withEntry_other fun same => different (UInt16.toNat_inj.mp same)]
      exact remembers.entry member unnamed
  · intro slot last found
    rw [List.lookup_cons] at found
    split at found
    next same =>
      obtain rfl := Option.some.inj found
      obtain rfl := beq_iff_eq.mp same
      obtain ⟨-, text, rfl, read⟩ := done
      refine (className_ok_iff _ _ _).mpr ⟨text, ?_, (withEntry_keeps _ here movable).utf8 read⟩
      exact (lookup_ok_iff _ _ _).mpr ⟨withEntry_entry _ here, by simp⟩
    next different =>
      have different := beq_eq_false_iff_ne.mp different
      exact className_withEntry new here movable different (remembers.named found)

private theorem remembers_effect {call : PoolCall} {before after : ConstantPool}
    {outcome : Except Fault Unit} (effect : PoolCall.Effect before call outcome after)
    (indexed : before.Indexed) {renamed : List (Index × String)}
    (remembers : Remembers renamed before) :
    Remembers (call.renamed outcome ++ renamed) after := by
  cases effect with
  | grown grows fails =>
    have none : call.renamed outcome = [] := by
      unfold PoolCall.renamed
      split
      · exact absurd rfl (fails _ _ rfl)
      · rfl
    rw [none]
    exact remembers.grows grows
  | @repointed index place rename middle old new grows here changed done =>
    have movable := PoolRename.movable_of_change changed
    have grown := remembers.grows grows
    -- Only a new name for a class is remembered. The other renames point away constants without
    -- names.
    cases rename with
    | class_ name => exact grown.renamed here movable (done indexed)
    | symbol name descriptor =>
      refine grown.withEntry new here movable ?_
      rintro text rfl
      cases changed
    | methodType descriptor =>
      refine grown.withEntry new here movable ?_
      rintro text rfl
      cases changed

private theorem remembers_afterAll {calls : List PoolCall}
    (allowed : ∀ call ∈ calls, call.Allowed) {pool : ConstantPool} (formed : pool.Formed)
    {renamed : List (Index × String)} (remembers : Remembers renamed pool) :
    Remembers (renamedBy calls pool ++ renamed) (afterAll calls pool) := by
  induction calls generalizing pool renamed with
  | nil => exact remembers
  | cons call calls ih =>
    rw [List.forall_mem_cons] at allowed
    have effect := PoolCall.effect allowed.1 pool
    rw [renamedBy, List.append_assoc]
    exact ih allowed.2 (effect.formed formed) (remembers_effect effect formed.indexed remembers)

private theorem classIndex_named {renamed : List (Index × String)} {before after : ConstantPool}
    (indexed : before.Indexed) (remembers : Remembers renamed before) {name : String} {index : Index}
    (gives : Gives (classIndex name) before index after) :
    after.className index = .ok ((renamed.lookup index).getD name) := by
  cases given : renamed.lookup index with
  | some last =>
    have grown : Extends before after := gives.moved (moves_classIndex name)
    exact grown.className (remembers.named given)
  | none =>
    simp only [classIndex, gives_bind_iff] at gives
    obtain ⟨text, _, named, _, pool, got, gives⟩ := gives
    obtain ⟨rfl, rfl⟩ := (gives_get_iff _ _ _).mp got
    have reads := utf8Index_reads indexed named
    have known := remembers.grows (named.moved (moves_utf8Index name))
    -- As it was never renamed, the entry still has the name index that it was found by.
    split at gives
    next slot found =>
      obtain ⟨rfl, rfl⟩ := (gives_pure_iff _ _ _ _).mp gives
      have entry := known.entry (mem_of_classSlot? found) given
      exact (className_ok_iff _ _ _).mpr ⟨text, (lookup_ok_iff _ _ _).mpr ⟨entry, by simp⟩, reads⟩
    · have grown : Extends pool after := gives.moved (Growth.push (by simp [Constant.Plain]))
      exact (className_ok_iff _ _ _).mpr
        ⟨text, (lookup_ok_iff _ _ _).mpr ⟨pushed_entry gives, by simp⟩, grown.utf8 reads⟩

/-- The class that is returned for a name has that name unless the slot was renamed before, and then
has the name that it was given last. -/
theorem classIndex_afterAll {start : ConstantPool} (fresh : start.Fresh) {calls : List PoolCall}
    (allowed : ∀ call ∈ calls, call.Allowed) {name : String} {index : Index} {after : ConstantPool}
    (gives : Gives (classIndex name) (afterAll calls start) index after) :
    after.className index = .ok name ↔
      ∀ last, (renamedBy calls start).lookup index = some last → last = name := by
  obtain ⟨sound, faithful⟩ := fresh.sound
  have formed := sound.formed
  have remembers : Remembers [] start :=
    ⟨fun member _ => remembered_entry sound.indexed faithful member, nofun⟩
  have known := remembers_afterAll allowed formed remembers
  rw [List.append_nil] at known
  rw [classIndex_named (formed.afterAll allowed).indexed known gives, Except.ok.injEq]
  cases (renamedBy calls start).lookup index with
  | none => simp
  | some last => simp

/-- A class and its rename. -/
def renamedOnce : List PoolCall := [.classIndex "A", .rename 2 (.class_ "B")]

theorem classIndex_afterAll_renamedOnce :
    Fresh empty ∧ (∀ call ∈ renamedOnce, call.Allowed) ∧
      Gives (classIndex "C") (afterAll renamedOnce empty) 5
        (ran (classIndex "C") (afterAll renamedOnce empty)).2 ∧
      ((ran (classIndex "C") (afterAll renamedOnce empty)).2.className 5 = .ok "C" ↔
        ∀ last, (renamedBy renamedOnce empty).lookup 5 = some last → last = "C") := by
  have fresh : Fresh empty := .empty
  have allowed : ∀ call ∈ renamedOnce, call.Allowed := by simp [renamedOnce, PoolCall.Allowed]
  have gives : Gives (classIndex "C") (afterAll renamedOnce empty) 5
      (ran (classIndex "C") (afterAll renamedOnce empty)).2 := Prod.ext (by decide +kernel) rfl
  exact ⟨fresh, allowed, gives, classIndex_afterAll fresh allowed gives⟩

/-- The old name still leads to the renamed class. -/
theorem renamed_class_under_old_name :
    ¬ ∀ start calls name index after, Fresh start → (∀ call ∈ calls, call.Allowed) →
      Gives (classIndex name) (afterAll calls start) index after →
      after.className index = .ok name := by
  intro always
  have allowed : ∀ call ∈ renamedOnce, call.Allowed := by simp [renamedOnce, PoolCall.Allowed]
  have gives : Gives (classIndex "A") (afterAll renamedOnce empty) 2
      (ran (classIndex "A") (afterAll renamedOnce empty)).2 := Prod.ext (by decide +kernel) rfl
  have named : (ran (classIndex "A") (afterAll renamedOnce empty)).2.className 2 = .ok "B" := by
    decide +kernel
  have other := always empty renamedOnce "A" 2 _ .empty allowed gives
  rw [named] at other
  exact absurd other (by decide)

end ConstantPool

end JarRemap
