import JarRemap.Attribute.Code
import JarRemap.RenamePlan.Apply

/-!
# Remapping a class

A class is renamed by a plan, and then the generic signatures and the tables of local variables are
renamed one by one. These refer to texts, which are never changed in place, so the old texts can
still be read after the plan was carried out.
-/

namespace JarRemap.Remap

open ClassFile (inPool)

/-- The slot of what `rename` makes of the text in slot `index`, if that is another text. -/
def renameText (rename : String → Except Fault String) (index : Index) :
    PoolEdit (Option Index) := do
  let old ← liftM ((← get).utf8 index)
  let new ← liftM (rename old)
  if new = old then return none else return some (← ConstantPool.utf8Index new)

/-- Renames in the first signature at the site, and says whether it changed. -/
def renameSignature (symbols : SymbolMap) (site : Site) : ClassEdit Bool := do
  let file ← get
  let attributes := (file.attributesAt site).getD []
  match Attribute.position? file.pool Attribute.signatureName attributes,
      Attribute.body? file.pool Attribute.signatureName attributes with
  | some position, some body =>
    let index ← liftM (Attribute.signature.parse Attribute.signatureName body)
    match ← inPool (renameText symbols.renameSignature index) with
    | none => return false
    | some new =>
      let changed ← liftM (Attribute.signature.encode new)
      modify (·.withAttributesAt site (Attribute.setBody position changed attributes))
      return true
  | _, _ => return false

/-- The record with its descriptor renamed, and whether it changed. -/
def renameVariable (rename : String → Except Fault String) (record : Attribute.LocalVariable) :
    PoolEdit (Attribute.LocalVariable × Bool) := do
  match ← renameText rename record.descriptor with
  | none => return (record, false)
  | some index => return ({ record with descriptor := index }, true)

def renameTable (rename : String → Except Fault String) (item : Attribute) :
    PoolEdit (Attribute × Bool) := do
  let records ← liftM
    (Attribute.localVariables.parse Attribute.localVariableTableName item.body)
  let renamed ← records.mapM (renameVariable rename)
  if renamed.any Prod.snd then
    let body ← liftM (Attribute.localVariables.encode (renamed.map Prod.fst))
    return ({ item with body := body }, true)
  else
    return (item, false)

/-- Renames an attribute of code, if it is a table of local variables. -/
def renameNested (symbols : SymbolMap) (item : Attribute) : PoolEdit (Attribute × Bool) := do
  let name ← liftM ((← get).utf8 item.name)
  if name = Attribute.localVariableTableName then renameTable symbols.renameDescriptor item
  else if name = Attribute.localVariableTypeTableName then
    renameTable symbols.renameSignature item
  else return (item, false)

/-- Renames in the tables of local variables in the first code of the method, and says whether one
of them changed. -/
def renameLocals (symbols : SymbolMap) (site : Site) : ClassEdit Bool := do
  let file ← get
  let attributes := (file.attributesAt site).getD []
  match Attribute.position? file.pool Attribute.codeName attributes,
      Attribute.body? file.pool Attribute.codeName attributes with
  | some position, some body =>
    let code ← liftM (Attribute.code.parse Attribute.codeName body)
    let renamed ← inPool (code.attributes.mapM (renameNested symbols))
    if renamed.any Prod.snd then
      let changed ← liftM
        (Attribute.code.encode { code with attributes := renamed.map Prod.fst })
      modify (·.withAttributesAt site (Attribute.setBody position changed attributes))
      return true
    else
      return false
  | _, _ => return false

/-- Whether any of the steps, all of which are run, says that it changed something. -/
def anyOf : List (ClassEdit Bool) → ClassEdit Bool
  | [] => return false
  | step :: rest => do
    let changed ← step
    let others ← anyOf rest
    return changed || others

/-- Renames in the signatures of the class, its fields and its methods, and in the local variables
of its methods. -/
def renameSignatures (symbols : SymbolMap) : ClassEdit Bool := do
  let file ← get
  let fields := (List.range file.fields.length).map fun position =>
    renameSignature symbols (.member .field position)
  let methods := (List.range file.methods.length).flatMap fun position =>
    [renameSignature symbols (.member .method position),
      renameLocals symbols (.member .method position)]
  anyOf (renameSignature symbols .wholeClass :: (fields ++ methods))

/-- Renames everything in the class, and says whether anything changed. -/
def remapClass (symbols : SymbolMap) : ClassEdit Bool := do
  let plan ← ClassFile.read (RenamePlan.ofClass symbols)
  let renamed ← plan.apply
  let resigned ← renameSignatures symbols
  return renamed || resigned

end JarRemap.Remap
