import JarRemap.Proofs.ClassFile.Attributes
import JarRemap.Structure.ParameterNames

/-!
# Metadata without new names

Whatever is put back into a class, and whether or not that succeeds, the class and its members keep
their names: all that happens is that attributes are given and the pool is appended to.
-/

namespace JarRemap

open ClassFile ConstantPool

variable {related : ClassFile → ClassFile → Prop} [Decorating related]

section

variable (site : Site) (name : String)

theorem ClassFile.moves_putAttribute (body : Bytes) : Moves related (putAttribute site name body) := by
  refine moves_get.bind fun file => ?_
  split
  · exact moves_pure _
  · split
    · exact moves_modify fun file => Decorating.attributes file site _
    · exact (Appending.appends fun _ _ => moves_utf8Index name).bind fun _ =>
        moves_modify fun file => Decorating.attributes file site _

theorem ClassFile.moves_removeAttribute : Moves related (removeAttribute site name) := by
  refine moves_get.bind fun file => ?_
  split
  · exact moves_pure _
  · exact (moves_modify fun file => Decorating.attributes file site _).bind fun _ => moves_pure _

end

namespace Injection

/-! ## Names in the pool -/

theorem moves_ofEdit {related : ClassFile → ClassFile → Prop} {α : Type} {edit : ClassEdit α}
    (moves : Moves related edit) : Moves related (ofEdit edit) := moves

section

variable {related : ClassFile → ClassFile → Prop} [Appending related]

theorem moves_inPool {α : Type} {edit : PoolEdit α} (appends : Appends edit) :
    Moves related (Injection.inPool edit) := moves_ofEdit (Appending.appends appends)

theorem moves_optionalIndex {index : String → PoolEdit Index}
    (appends : ∀ name, Appends (index name)) (name : Option String) :
    Moves related (optionalIndex index name) := by
  cases name with
  | none => exact moves_pure 0
  | some name => exact moves_inPool (appends name)

theorem moves_innerClass (record : InnerRecord) : Moves related (innerClass record) :=
  (moves_inPool fun _ _ => moves_classIndex _).bind fun _ =>
    (moves_optionalIndex (fun _ _ _ => moves_classIndex _) _).bind fun _ =>
      (moves_optionalIndex (fun _ _ _ => moves_utf8Index _) _).bind fun _ =>
        (moves_lift _).bind fun _ => moves_pure _

end

private theorem moves_read {α : Type} (look : ClassFile → Except Fault α) :
    Moves related (ofEdit (ClassFile.read look)) := fun file => refl file

private theorem moves_put (site : Site) (name : String) (body : Bytes) :
    Moves related (put site name body) := by
  refine moves_get.bind fun file => ?_
  split
  · exact moves_pure _
  · exact (moves_ofEdit (moves_putAttribute site name body)).bind fun _ => moves_pure _

private theorem moves_putValue {α : Type} (site : Site) (name : String) (format : Format α)
    (value : α) : Moves related (putValue site name format value) :=
  (moves_read _).bind fun body => moves_put site name body

/-! ## The parts of a record -/

private theorem moves_putInnerClasses (records : Option (List InnerRecord)) :
    Moves related (putInnerClasses records) := by
  rw [putInnerClasses.eq_def]
  split
  · exact moves_pure _
  · exact moves_ofEdit (moves_removeAttribute _ _)
  · exact (moves_mapM moves_innerClass _).bind fun rows => moves_putValue _ _ _ rows

private theorem moves_putEnclosing (record : Option EnclosingRecord) :
    Moves related (putEnclosing record) := by
  cases record with
  | none => exact moves_pure _
  | some record =>
    refine (moves_inPool fun _ _ => moves_classIndex _).bind fun owner => ?_
    dsimp only
    split
    · exact (moves_inPool fun _ _ => moves_nameAndTypeIndex _ _).bind fun _ => moves_putValue _ _ _ _
    · exact (moves_pure 0).bind fun _ => moves_putValue _ _ _ _

private theorem moves_putSignature (site : Site) (text : Option String) :
    Moves related (putSignature site text) := by
  cases text with
  | none => exact moves_pure _
  | some text =>
    exact (moves_inPool fun _ _ => moves_utf8Index _).bind fun index => moves_putValue _ _ _ index

private theorem moves_putExceptions (site : Site) (names : Option (List String)) :
    Moves related (putExceptions site names) := by
  cases names with
  | none => exact moves_pure _
  | some names =>
    exact (moves_mapM (fun name => moves_inPool fun _ _ => moves_classIndex name) _).bind
      fun indices => moves_putValue _ _ _ indices

private theorem moves_putParameters (site : Site) (names : List String) :
    Moves related (putParameters site names) := by
  refine (moves_mapM (fun name => ?_) _).bind fun parameters => moves_putValue _ _ _ parameters
  exact (moves_inPool fun _ _ => moves_utf8Index name).bind fun _ => moves_pure _

private theorem moves_putMatchingParameters (site : Site) (descriptor : String)
    (names : Option (List String)) : Moves related (putMatchingParameters site descriptor names) := by
  cases names with
  | none => exact moves_pure _
  | some names =>
    refine (moves_read _).bind fun slots => ?_
    split
    · exact moves_putParameters site names
    · exact moves_pure _

private theorem moves_putMethod (key : String) (structure_ : MethodStructure) :
    Moves related (putMethod key structure_) := by
  rw [putMethod]
  split
  · exact moves_pure _
  · refine moves_get.bind fun file => ?_
    split
    · exact moves_pure _
    · exact (moves_putExceptions _ _).bind fun _ => (moves_putSignature _ _).bind fun _ =>
        (moves_putMatchingParameters _ _ _).bind fun _ => moves_pure _

private theorem moves_putMethods (methods : List (String × MethodStructure)) :
    Moves related (putMethods methods) := by
  induction methods with
  | nil => exact moves_pure _
  | cons entry methods ih => exact (moves_putMethod _ _).bind fun _ => ih.bind fun _ => moves_pure _

private theorem moves_putStructure (structure_ : ClassStructure) :
    Moves related (putStructure structure_) :=
  (moves_putInnerClasses _).bind fun _ => (moves_putEnclosing _).bind fun _ =>
    (moves_putSignature _ _).bind fun _ => (moves_putMethods _).bind fun _ => moves_pure _

/-! ## Records and generated names -/

private theorem moves_generateAt (position : Nat) :
    Moves related (ParameterNames.generateAt position) := by
  refine moves_get.bind fun file => ?_
  split
  · exact moves_pure _
  · refine (moves_lift _).bind fun names => ?_
    split
    · exact moves_pure _
    · exact moves_putParameters _ _

theorem moves_generateFrom (position count : Nat) :
    Moves related (ParameterNames.generateFrom position count) := by
  induction count generalizing position with
  | zero => exact moves_pure _
  | succ count ih => exact (moves_generateAt position).bind fun _ => (ih _).bind fun _ => moves_pure _

theorem moves_inject (structure_ : Option ClassStructure) (generates : Bool) :
    Moves related (inject structure_ generates) := by
  have names (restored : Bool) : Moves related (do
      let named ← if generates then ParameterNames.generate else pure false
      return restored || named : Injection Bool) := by
    split
    · exact (moves_get.bind fun file => moves_generateFrom _ _).bind fun _ => moves_pure _
    · exact (moves_pure _).bind fun _ => moves_pure _
  cases structure_ with
  | none => exact (moves_pure _).bind names
  | some structure_ => exact (moves_putStructure structure_).bind names

end Injection

end JarRemap
