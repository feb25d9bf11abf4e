import JarRemap.ClassFile.Edit
import JarRemap.RenamePlan

/-!
# Carrying out a plan

Classes are renamed first, then references and call sites, then method types, then the members of
the class, and last the attributes about nested classes. The pool only grows in all of this.
-/

namespace JarRemap.RenamePlan

open ClassFile (inPool)

def renameClasses (plan : RenamePlan) : ClassEdit Unit :=
  plan.pool.forM fun (index, rename) =>
    match rename with
    | .class_ name => inPool (ConstantPool.renameClass index name)
    | _ => pure ()

def renameSymbols (plan : RenamePlan) : ClassEdit Unit :=
  plan.pool.forM fun (index, rename) =>
    match rename with
    | .symbol name descriptor => inPool (ConstantPool.renameMember index name descriptor)
    | _ => pure ()

def retypeMethodTypes (plan : RenamePlan) : ClassEdit Unit :=
  plan.pool.forM fun (index, rename) =>
    match rename with
    | .methodType descriptor => inPool (ConstantPool.retypeMethodType index descriptor)
    | _ => pure ()

def renameMembers (plan : RenamePlan) : ClassEdit Unit :=
  plan.members.forM fun rename =>
    ClassFile.setMemberSymbol rename.kind rename.position rename.name rename.descriptor

/-- Records beyond the end of the list are left out. -/
def withInnerName (records : List Attribute.InnerClass) (position : Nat) (name : String) :
    PoolEdit (List Attribute.InnerClass) :=
  if position < records.length then do
    let index ← ConstantPool.utf8Index name
    return records.modify position fun record => { record with simpleName := index }
  else
    return records

/-- Gives the first attribute with the name the body that `change` makes of it. -/
def changeAttribute (name : String) (change : Bytes → ClassEdit Bytes) : ClassEdit Unit := do
  let file ← get
  match Attribute.position? file.pool name file.attributes,
      Attribute.body? file.pool name file.attributes with
  | some position, some body =>
    let changed ← change body
    modify fun file => { file with attributes := Attribute.setBody position changed file.attributes }
  | _, _ => return

def renameInners (plan : RenamePlan) : ClassEdit Unit :=
  if plan.innerNames.isEmpty then pure ()
  else
    changeAttribute Attribute.innerClassesName fun body => do
      let records ← liftM (Attribute.innerClasses.parse Attribute.innerClassesName body)
      let renamed ← inPool <| plan.innerNames.foldlM
        (fun records (position, name) => withInnerName records position name) records
      liftM (Attribute.innerClasses.encode renamed)

def renameEnclosing (plan : RenamePlan) : ClassEdit Unit :=
  match plan.enclosing with
  | none => pure ()
  | some (place, name, descriptor) =>
    changeAttribute Attribute.enclosingMethodName fun _ => do
      let method ← inPool (ConstantPool.nameAndTypeIndex name descriptor)
      liftM (Attribute.enclosingMethod.encode { place with method := method })

/-- Carries out the plan, and says whether there was anything to do. -/
def apply (plan : RenamePlan) : ClassEdit Bool :=
  if plan.isEmpty then pure false
  else do
    plan.renameClasses
    plan.renameSymbols
    plan.retypeMethodTypes
    plan.renameMembers
    plan.renameInners
    plan.renameEnclosing
    return true

end JarRemap.RenamePlan
