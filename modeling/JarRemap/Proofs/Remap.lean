import JarRemap.Proofs.RenamePlan.Apply
import JarRemap.Remap

/-!
# What remapping a class does

Every slot of the pool says the same as before, but with new names. The plan sees to that, and the
signatures and the tables of local variables that are renamed after it only ask for more texts.
-/

namespace JarRemap.Remap

open ClassFile ConstantPool

/-! ## Signatures and local variables -/

theorem asks_renameText (rename : String → Except Fault String) (index : Index) :
    Asks (renameText rename index) := by
  intro related _
  refine moves_get.bind fun pool => (moves_lift _).bind fun old => (moves_lift _).bind fun new => ?_
  split
  · exact moves_pure _
  · exact (moves_utf8Index new).bind fun _ => moves_pure _

theorem asks_renameVariable (rename : String → Except Fault String)
    (record : Attribute.LocalVariable) : Asks (renameVariable rename record) := by
  intro related _
  refine (asks_renameText rename record.descriptor related).bind fun index => ?_
  split
  · exact moves_pure _
  · exact moves_pure _

theorem asks_renameTable (rename : String → Except Fault String) (item : Attribute) :
    Asks (renameTable rename item) := by
  intro related _
  refine (moves_lift _).bind fun records => ?_
  refine (moves_mapM (fun record => asks_renameVariable rename record related) _).bind fun renamed => ?_
  split
  · exact (moves_lift _).bind fun _ => moves_pure _
  · exact moves_pure _

theorem asks_renameNested (symbols : SymbolMap) (item : Attribute) :
    Asks (renameNested symbols item) := by
  intro related _
  refine moves_get.bind fun pool => (moves_lift _).bind fun name => ?_
  split
  · exact asks_renameTable _ item related
  · split
    · exact asks_renameTable _ item related
    · exact moves_pure _

section

variable {related : ClassFile → ClassFile → Prop} [Decorating related]

private theorem moves_renameSignature (symbols : SymbolMap) (site : Site) :
    Moves related (renameSignature symbols site) := by
  refine moves_get.bind fun file => ?_
  dsimp only
  split
  · refine (moves_lift _).bind fun index => (Appending.appends (asks_renameText _ index).appends).bind fun new => ?_
    split
    · exact moves_pure _
    · exact (moves_lift _).bind fun changed =>
        (moves_modify fun file => Decorating.attributes file site _).bind fun _ => moves_pure _
  · exact moves_pure _

private theorem moves_renameLocals (symbols : SymbolMap) (site : Site) :
    Moves related (renameLocals symbols site) := by
  refine moves_get.bind fun file => ?_
  dsimp only
  split
  · refine (moves_lift _).bind fun code => ?_
    refine (Appending.appends fun appended _ =>
      moves_mapM (fun item => asks_renameNested symbols item appended) _).bind fun renamed => ?_
    split
    · exact (moves_lift _).bind fun changed =>
        (moves_modify fun file => Decorating.attributes file site _).bind fun _ => moves_pure _
    · exact moves_pure _
  · exact moves_pure _

private theorem moves_anyOf {steps : List (ClassEdit Bool)}
    (moves : ∀ step ∈ steps, Moves related step) : Moves related (anyOf steps) := by
  induction steps with
  | nil => exact moves_pure _
  | cons step steps ih =>
    rw [List.forall_mem_cons] at moves
    exact moves.1.bind fun _ => (ih moves.2).bind fun _ => moves_pure _

theorem moves_renameSignatures (symbols : SymbolMap) :
    Moves related (renameSignatures symbols) := by
  refine moves_get.bind fun file => moves_anyOf fun step member => ?_
  simp only [List.mem_cons, List.mem_append, List.mem_map, List.mem_flatMap, List.not_mem_nil,
    or_false] at member
  rcases member with rfl | ⟨position, -, rfl⟩ | ⟨position, -, rfl | rfl⟩
  · exact moves_renameSignature symbols _
  · exact moves_renameSignature symbols _
  · exact moves_renameSignature symbols _
  · exact moves_renameLocals symbols _

end

/-- Remapping a class carries out a plan for it, and leaves its names alone after that. -/
theorem remapClass_carried {symbols : SymbolMap} {before after : ClassFile} {changed : Bool}
    (indexed : before.pool.Indexed) (gives : Gives (remapClass symbols) before changed after) :
    ∃ owner bootstrap, before.name = .ok owner ∧
      RenamePlan.ofAttribute before Attribute.bootstrapMethodsName Attribute.bootstrapMethods [] .ok =
        .ok bootstrap ∧
      RenamePlan.Carried symbols bootstrap owner before after := by
  simp only [remapClass, gives_bind_iff, gives_read_iff, gives_pure_iff] at gives
  obtain ⟨plan, _, ⟨planned, rfl⟩, _, middle, applied, _, _, resigned, -, rfl⟩ := gives
  obtain ⟨owner, bootstrap, named, booted, carried⟩ :=
    RenamePlan.apply_carried indexed planned applied
  exact ⟨owner, bootstrap, named, booted,
    carried.later (resigned.moved (moves_renameSignatures symbols))⟩

end JarRemap.Remap
