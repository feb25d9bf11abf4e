import JarRemap.Pass

/-!
# Symbol maps that agree

Of the hierarchy, only the ancestors of classes count for new names. Two maps with the same table
and the same ancestors give the same names, and so remapping with them is the same work.
-/

namespace JarRemap

/-- The hierarchies may list their classes in different ways. -/
structure SymbolMap.Agree (first second : SymbolMap) : Prop where
  table : second.table = first.table
  ancestors : ∀ owner, second.hierarchy.ancestors owner = first.hierarchy.ancestors owner

variable {first second : SymbolMap}

namespace SymbolMap.Agree

variable (agree : Agree first second)
include agree

private theorem inherited : second.inherited = first.inherited := by
  funext owner look
  rw [SymbolMap.inherited, SymbolMap.inherited, agree.ancestors]

theorem member? : second.member? = first.member? := by
  funext kind owner name descriptor
  cases kind <;> simp only [SymbolMap.member?, agree.inherited, agree.table]

theorem callSite? : second.callSite? = first.callSite? := by
  funext interface name erased
  cases erased <;> simp only [SymbolMap.callSite?, agree.member?, agree.inherited, agree.table]

theorem renameDescriptor : second.renameDescriptor = first.renameDescriptor := by
  funext descriptor
  rw [SymbolMap.renameDescriptor, SymbolMap.renameDescriptor, agree.table]

theorem renameSignature : second.renameSignature = first.renameSignature := by
  funext signature
  rw [SymbolMap.renameSignature, SymbolMap.renameSignature, agree.table]

theorem renameReference : second.renameReference = first.renameReference := by
  funext name
  rw [SymbolMap.renameReference, SymbolMap.renameReference, agree.table]

end SymbolMap.Agree

variable (agree : first.Agree second)
include agree

/-! ## The plan -/

namespace RenamePlan

private theorem renamedMember_agree : renamedMember second = renamedMember first := by
  funext kind owner name descriptor
  simp only [renamedMember, agree.member?, agree.renameDescriptor]

private theorem renamedConstant_agree : renamedConstant second = renamedConstant first := by
  funext pool bootstrap index constant
  simp only [renamedConstant, renamedCallSite, renamedMember_agree agree, agree.callSite?,
    agree.renameDescriptor, agree.renameReference]

private theorem renamedInner_agree : renamedInner second = renamedInner first := by
  funext pool record
  simp only [renamedInner, agree.renameReference]

private theorem renamedEnclosing_agree : renamedEnclosing second = renamedEnclosing first := by
  funext pool place
  simp only [renamedEnclosing, renamedMember_agree agree]

theorem ofClass_agree : ofClass second = ofClass first := by
  funext file
  simp only [ofClass, renamedConstants, renamedMembers, renamedInners, renamedConstant_agree agree,
    renamedMember_agree agree, renamedInner_agree agree, renamedEnclosing_agree agree]

end RenamePlan

/-! ## The class -/

namespace Remap

private theorem renameSignature_agree : renameSignature second = renameSignature first := by
  funext site
  simp only [renameSignature, agree.renameSignature]

private theorem renameLocals_agree : renameLocals second = renameLocals first := by
  have nested : renameNested second = renameNested first := by
    funext item
    simp only [renameNested, agree.renameDescriptor, agree.renameSignature]
  funext site
  simp only [renameLocals, nested]

theorem remapClass_agree : remapClass second = remapClass first := by
  have signatures : renameSignatures second = renameSignatures first := by
    simp only [renameSignatures, renameSignature_agree agree, renameLocals_agree agree]
  simp only [remapClass, RenamePlan.ofClass_agree agree, signatures]

end Remap

theorem Transform.applyAll_agree (transforms : List Transform) :
    applyAll second transforms = applyAll first transforms := by
  induction transforms with
  | nil => rfl
  | cons transform transforms ih =>
    rw [applyAll, applyAll, ih]
    cases transform with
    | remap => rw [apply, apply, Remap.remapClass_agree agree]
    | access => rfl
    | strip => rfl

end JarRemap
