import JarRemap.Proofs.Remap.Bodies
import Mathlib.Data.List.Nodup

/-!
# Renaming in all signatures and tables

The signature of each site, and the code of each method, is renamed in once. What is done for one of
them leaves all others alone, so each ends up as its own step left it.
-/

namespace JarRemap.Remap

open ClassFile ConstantPool Attribute

/-- One attribute to rename in. -/
inductive Task
  | signature (site : Site)
  | locals (site : Site)
deriving DecidableEq

namespace Task

/-- The site of the attribute and its name. -/
def place : Task → Site × String
  | signature site => (site, signatureName)
  | locals site => (site, codeName)

def run (symbols : SymbolMap) : Task → ClassEdit Bool
  | signature site => renameSignature symbols site
  | locals site => renameLocals symbols site

/-- What becomes of the body of the attribute. -/
def Work (symbols : SymbolMap) : Task → ConstantPool → ConstantPool → Bytes → Bytes → Prop
  | signature _ => SignatureRenamed symbols
  | locals _ => CodeRenamed symbols

/-- The attribute is the one that the step for the task is about, and not another one. -/
def Owns (task : Task) (site : Site) (name : String) : Prop := (site, name) = task.place

section

variable {symbols : SymbolMap} {task : Task}

theorem place_injective {other : Task} (same : task.place = other.place) : task = other := by
  cases task <;> cases other <;> simp [place, signatureName, codeName] at same
  · rw [same]
  · rw [same]

theorem Work.widen {first old new last : ConstantPool} {body changed : Bytes}
    (work : task.Work symbols old new body changed) (earlier : Keeps first old)
    (later : Keeps new last) : task.Work symbols first last body changed := by
  cases task with
  | signature site => exact SignatureRenamed.widen work earlier later
  | locals site => exact CodeRenamed.widen work earlier later

theorem Work.turns {old new : ConstantPool} {body changed : Bytes}
    (work : task.Work symbols old new body changed) :
    BodyTurns new task.place.2 body changed := by
  cases task with
  | signature site =>
    have others : signatureName ≠ codeName ∧ signatureName ≠ innerClassesName := by decide
    exact ⟨fun same => absurd same others.1, fun same => absurd same others.2⟩
  | locals site =>
    have other : codeName ≠ innerClassesName := by decide
    exact ⟨fun _ => CodeRenamed.onlyTables work, fun same => absurd same other⟩

theorem rewrites {before after : ClassFile} {changed : Bool} (indexed : before.pool.Indexed)
    (gives : Gives (task.run symbols) before changed after) :
    Rewrites task.place.1 task.place.2 (task.Work symbols) before after := by
  cases task with
  | signature site => exact renameSignature_rewrites indexed gives
  | locals site => exact renameLocals_rewrites indexed gives

theorem touches {before after : ClassFile} {changed : Bool} (indexed : before.pool.Indexed)
    (gives : Gives (task.run symbols) before changed after) : Touches task.Owns before after :=
  ((rewrites indexed gives).touches Work.turns).weaken fun _ _ same => Prod.ext same.1 same.2

end

end Task

/-! ## One task after another -/

section

variable {symbols : SymbolMap} {tasks : List Task} {before after : ClassFile} {changed : Bool}

private theorem gives_anyOf_append {left right : List (ClassEdit Bool)}
    (gives : Gives (anyOf (left ++ right)) before changed after) :
    ∃ middle changed' changed'', Gives (anyOf left) before changed' middle ∧
      Gives (anyOf right) middle changed'' after := by
  induction left generalizing before changed with
  | nil => exact ⟨before, false, changed, rfl, gives⟩
  | cons step left ih =>
    simp only [List.cons_append, anyOf, gives_bind_iff, gives_pure_iff] at gives
    obtain ⟨found, next, first, others, _, rest, -, rfl⟩ := gives
    obtain ⟨middle, changed', changed'', front, back⟩ := ih rest
    refine ⟨middle, found || changed', changed'', ?_, back⟩
    simp only [anyOf, gives_bind_iff, gives_pure_iff]
    exact ⟨found, next, first, changed', middle, front, rfl, rfl⟩

/-- Only attributes that a task is about have other bodies. -/
theorem anyOf_touches (indexed : before.pool.Indexed)
    (gives : Gives (anyOf (tasks.map (Task.run symbols))) before changed after) :
    Touches (fun site name => ∃ task ∈ tasks, task.Owns site name) before after := by
  induction tasks generalizing before changed with
  | nil =>
    obtain ⟨-, rfl⟩ := (gives_pure_iff _ _ _ _).mp gives
    exact refl after
  | cons task tasks ih =>
    simp only [List.map_cons, anyOf, gives_bind_iff, gives_pure_iff] at gives
    obtain ⟨found, middle, first, others, _, rest, -, rfl⟩ := gives
    have here := task.touches indexed first
    refine IsTrans.trans _ _ _ (here.weaken ?_) ((ih (here.keeps.indexed indexed) rest).weaken ?_)
    · exact fun site name owns => ⟨task, List.mem_cons_self, owns⟩
    · exact fun site name => Exists.imp fun _ => And.imp_left (List.mem_cons_of_mem task)

/-- What becomes of the body that a task is about is its own work. -/
private theorem anyOf_work (nodup : tasks.Nodup) (indexed : before.pool.Indexed)
    (gives : Gives (anyOf (tasks.map (Task.run symbols))) before changed after) {task : Task}
    (member : task ∈ tasks) {body : Bytes}
    (there : before.bodyAt task.place.1 task.place.2 = some body) :
    ∃ changed, task.Work symbols before.pool after.pool body changed ∧
      after.bodyAt task.place.1 task.place.2 = some changed := by
  -- The step for the task parts the run, and no other step is for the same attribute.
  obtain ⟨front, back, rfl⟩ := List.append_of_mem member
  obtain ⟨-, behind, across⟩ := List.pairwise_append.mp nodup
  have inFront : ¬ ∃ other ∈ front, other.Owns task.place.1 task.place.2 := by
    rintro ⟨other, found, owns⟩
    exact across other found task List.mem_cons_self (Task.place_injective owns).symm
  have inBack : ¬ ∃ other ∈ back, other.Owns task.place.1 task.place.2 := by
    rintro ⟨other, found, owns⟩
    exact (List.pairwise_cons.mp behind).1 other found (Task.place_injective owns)
  rw [List.map_append, List.map_cons] at gives
  obtain ⟨first, _, _, front_, rest⟩ := gives_anyOf_append gives
  simp only [anyOf, gives_bind_iff, gives_pure_iff] at rest
  obtain ⟨_, last, here, _, _, back_, -, rfl⟩ := rest
  have early := anyOf_touches indexed front_
  have indexed' := early.keeps.indexed indexed
  have late := anyOf_touches ((task.touches indexed' here).keeps.indexed indexed') back_
  obtain ⟨changed, work, turned⟩ := (task.rewrites indexed' here).bodyAt (early.bodyAt inFront there)
  exact ⟨changed, work.widen early.keeps late.keeps, late.bodyAt inBack turned⟩

end

/-! ## All of them -/

/-- The signatures of the class, its fields and its methods, and the code of its methods. -/
def tasks (file : ClassFile) : List Task :=
  .signature .wholeClass ::
    ((List.range file.fields.length).map (fun position => .signature (.member .field position)) ++
      (List.range file.methods.length).flatMap fun position =>
        [.signature (.member .method position), .locals (.member .method position)])

section

variable {symbols : SymbolMap} {before after : ClassFile} {changed : Bool}

theorem mem_tasks_iff (file : ClassFile) (task : Task) :
    task ∈ tasks file ↔ task = .signature .wholeClass ∨
      (∃ position < file.fields.length, task = .signature (.member .field position)) ∨
      ∃ position < file.methods.length, task = .signature (.member .method position) ∨
        task = .locals (.member .method position) := by
  simp [tasks, eq_comm]

theorem tasks_nodup (file : ClassFile) : (tasks file).Nodup := by
  have fields : ((List.range file.fields.length).map fun position =>
      Task.signature (.member .field position)).Nodup :=
    List.Nodup.map (fun _ _ same => by simpa using same) List.nodup_range
  have methods : ((List.range file.methods.length).flatMap fun position =>
      [Task.signature (.member .method position), .locals (.member .method position)]).Nodup := by
    refine List.nodup_flatMap.mpr ⟨fun _ _ => by simp, List.nodup_range.imp fun different => ?_⟩
    simp [Function.onFun, different.symm]
  refine List.nodup_cons.mpr ⟨by simp, List.nodup_append.mpr ⟨fields, methods, ?_⟩⟩
  intro task found other found' same
  subst same
  obtain ⟨_, -, rfl⟩ := List.mem_map.mp found
  simp at found'

theorem gives_tasks (gives : Gives (renameSignatures symbols) before changed after) :
    Gives (anyOf ((tasks before).map (Task.run symbols))) before changed after := by
  simp only [renameSignatures, gives_bind_iff, gives_get_iff] at gives
  obtain ⟨_, _, ⟨rfl, rfl⟩, gives⟩ := gives
  simpa [tasks, Task.run, List.map_flatMap, Function.comp_def] using gives

/-- What becomes of the body that a task is about. -/
theorem renameSignatures_work (indexed : before.pool.Indexed)
    (gives : Gives (renameSignatures symbols) before changed after) {task : Task}
    (member : task ∈ tasks before) {body : Bytes}
    (there : before.bodyAt task.place.1 task.place.2 = some body) :
    ∃ changed, task.Work symbols before.pool after.pool body changed ∧
      after.bodyAt task.place.1 task.place.2 = some changed :=
  anyOf_work (tasks_nodup before) indexed (gives_tasks gives) member there

/-- Only signatures, and the code of methods, have other bodies. -/
theorem renameSignatures_touches (indexed : before.pool.Indexed)
    (gives : Gives (renameSignatures symbols) before changed after) :
    Touches (fun site name => name = signatureName ∨
      name = codeName ∧ ∃ position, site = .member .method position) before after := by
  refine (anyOf_touches indexed (gives_tasks gives)).weaken ?_
  rintro site name ⟨task, member, owns⟩
  cases task with
  | signature place =>
    obtain ⟨-, rfl⟩ := Prod.mk.inj owns
    exact .inl rfl
  | locals place =>
    obtain ⟨rfl, rfl⟩ := Prod.mk.inj owns
    obtain ⟨position, -, rfl⟩ : ∃ position < before.methods.length, site = .member .method position := by
      simpa [mem_tasks_iff] using member
    exact .inr ⟨rfl, position, rfl⟩

end

end JarRemap.Remap
