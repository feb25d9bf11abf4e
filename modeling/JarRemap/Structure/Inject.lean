import JarRemap.Attribute.Method
import JarRemap.ClassFile.Edit
import JarRemap.Descriptor
import JarRemap.Structure

/-!
# Putting structural metadata back

Everything a record says becomes an attribute of the class or of one of its methods. An attribute
that says the same already is left alone, so putting a record back twice changes nothing more.
-/

namespace JarRemap

/-- Work on a class by a record that may be wrong itself. -/
abbrev Injection := ExceptT Failure (StateM ClassFile)

namespace Injection

def ofEdit {α : Type} (edit : ClassEdit α) : Injection α := ExceptT.mk fun file =>
  let (outcome, file) := edit.run.run file
  (outcome.mapError .classFile, file)

def inPool {α : Type} (edit : PoolEdit α) : Injection α := ofEdit (ClassFile.inPool edit)

/-- Gives the site an attribute, and says whether it did not have just that before. -/
def put (site : Site) (name : String) (body : Bytes) : Injection Bool := do
  let file ← get
  if ((file.attributesAt site).bind (Attribute.body? file.pool name)) = some body then
    return false
  else
    ofEdit (ClassFile.putAttribute site name body)
    return true

/-- Puts a value in the format of the attribute. -/
def putValue {α : Type} (site : Site) (name : String) (format : Format α) (value : α) :
    Injection Bool := do
  let body ← ofEdit (ClassFile.read fun _ => format.encode value)
  put site name body

/-- The slot for a name, or zero if there is none. -/
def optionalIndex (index : String → PoolEdit Index) : Option String → Injection Index
  | some name => inPool (index name)
  | none => return 0

def innerClass (record : InnerRecord) : Injection Attribute.InnerClass := do
  let inner ← inPool (ConstantPool.classIndex record.innerClass)
  let outer ← optionalIndex ConstantPool.classIndex record.outerClass
  let name ← optionalIndex ConstantPool.utf8Index record.innerName
  let flags ← liftM record.accessFlags
  return ⟨inner, outer, name, flags⟩

/-- An empty list takes the attribute away. -/
def putInnerClasses : Option (List InnerRecord) → Injection Bool
  | none => return false
  | some [] => ofEdit (ClassFile.removeAttribute .wholeClass Attribute.innerClassesName)
  | some records => do
    let rows ← records.mapM innerClass
    putValue .wholeClass Attribute.innerClassesName Attribute.innerClasses rows

def putEnclosing : Option EnclosingRecord → Injection Bool
  | none => return false
  | some record => do
    let owner ← inPool (ConstantPool.classIndex record.owner)
    let method ← match record.name, record.descriptor with
      | some name, some descriptor => inPool (ConstantPool.nameAndTypeIndex name descriptor)
      | _, _ => pure 0
    putValue .wholeClass Attribute.enclosingMethodName Attribute.enclosingMethod ⟨owner, method⟩

def putSignature (site : Site) : Option String → Injection Bool
  | none => return false
  | some text => do
    let index ← inPool (ConstantPool.utf8Index text)
    putValue site Attribute.signatureName Attribute.signature index

def putExceptions (site : Site) : Option (List String) → Injection Bool
  | none => return false
  | some names => do
    let indices ← names.mapM fun name => inPool (ConstantPool.classIndex name)
    putValue site Attribute.exceptionsName Attribute.exceptions indices

/-- Parameters with these names and no flags. -/
def putParameters (site : Site) (names : List String) : Injection Bool := do
  let parameters ← names.mapM fun name =>
    return (⟨← inPool (ConstantPool.utf8Index name), .empty⟩ : Attribute.MethodParameter)
  putValue site Attribute.methodParametersName Attribute.methodParameters parameters

/-- Names for the parameters of a method with this descriptor; a wrong number of names is none. -/
def putMatchingParameters (site : Site) (descriptor : String) :
    Option (List String) → Injection Bool
  | none => return false
  | some names => do
    let slots ← ofEdit (ClassFile.read fun _ => Descriptor.parameterSlots descriptor)
    if names.length = slots.length then putParameters site names else return false

/-- The name and the descriptor of the method that a record is for. -/
def methodSymbol? (key : String) : Option (String × String) :=
  match Text.cut ' ' key.toList with
  | (name, some descriptor) => some (String.ofList name, String.ofList descriptor)
  | (_, none) => none

/-- Records for methods that the class does not have are passed over. -/
def putMethod (key : String) (structure_ : MethodStructure) : Injection Bool := do
  match methodSymbol? key with
  | none => return false
  | some (name, descriptor) =>
    match (← get).findMember? .method name descriptor with
    | none => return false
    | some position =>
      let site := Site.member .method position
      let exceptions ← putExceptions site structure_.exceptions
      let signature ← putSignature site structure_.signature
      let parameters ← putMatchingParameters site descriptor structure_.parameters
      return exceptions || signature || parameters

def putMethods : List (String × MethodStructure) → Injection Bool
  | [] => return false
  | (key, structure_) :: rest => do
    let changed ← putMethod key structure_
    let others ← putMethods rest
    return changed || others

/-- Puts everything back that the record says, and says whether that changed anything. -/
def putStructure (structure_ : ClassStructure) : Injection Bool := do
  let inner ← putInnerClasses structure_.innerClasses
  let enclosing ← putEnclosing structure_.enclosingMethod
  let signature ← putSignature .wholeClass structure_.signature
  let methods ← putMethods structure_.methods.entries
  return inner || enclosing || signature || methods

end Injection

end JarRemap
