import JarRemap.Attribute.Method
import JarRemap.SymbolMap

/-!
# Plans for renaming a class

Everything in a class that has to get another name, worked out before anything is changed: as long
as the class is untouched, all owners still have their old names, and members are looked up by old
names.
-/

namespace JarRemap

/-- What has to happen to one entry of the constant pool. -/
inductive PoolRename
  | class_ (name : String)
  | symbol (name descriptor : String)
  | methodType (descriptor : String)
deriving DecidableEq, Repr

/-- A field or method that gets another name or descriptor. -/
structure MemberRename where
  kind : MemberKind
  position : Nat
  name : String
  descriptor : String
deriving DecidableEq, Repr

structure RenamePlan where
  pool : List (Index × PoolRename)
  members : List MemberRename
  /-- New simple names of nested classes, by the position of their record. -/
  innerNames : List (Nat × String)
  /-- The place of the class, and the new name and descriptor of the method around it. -/
  enclosing : Option (Attribute.EnclosingMethod × String × String)
deriving DecidableEq, Repr

namespace RenamePlan

def isEmpty (plan : RenamePlan) : Bool :=
  plan.pool.isEmpty && plan.members.isEmpty && plan.innerNames.isEmpty && plan.enclosing.isNone

/-- The name and descriptor if they differ from the old ones. -/
def changed (old new : String × String) : Option (String × String) :=
  if new = old then none else some new

/-- The new name and descriptor of a member, if one of them changes. -/
def renamedMember (symbols : SymbolMap) (kind : MemberKind) (owner name descriptor : String) :
    Except Fault (Option (String × String)) := do
  let newName := (symbols.member? kind owner name descriptor).getD name
  let newDescriptor ← symbols.renameDescriptor descriptor
  return changed (name, descriptor) (newName, newDescriptor)

def ReferenceKind.memberKind : ReferenceKind → MemberKind
  | .field => .field
  | .method | .interfaceMethod => .method

/-- The class that a call site makes objects of: what its descriptor returns. -/
def producedInterface (descriptor : String) : Option String := do
  let (_, returned) ← Text.cutLast? ')' descriptor.toList
  let name ← Text.before? [';'] (← Text.after? ['L'] returned)
  return String.ofList name

/-- The descriptor of the method that a call site implements, as the first static argument of its
bootstrap method tells it. -/
def erasedDescriptor (pool : ConstantPool) (bootstrap : List Attribute.BootstrapMethod)
    (slot : UInt16) : Option String := do
  let argument ← (← bootstrap[slot.toNat]?).arguments.head?
  match pool.lookup argument with
  | .ok (.methodType descriptor) => (pool.utf8 descriptor).toOption
  | _ => none

def renamedCallSite (symbols : SymbolMap) (pool : ConstantPool)
    (bootstrap : List Attribute.BootstrapMethod) (slot : UInt16) (name descriptor : String) :
    String :=
  match producedInterface descriptor with
  | some interface =>
    (symbols.callSite? interface name (erasedDescriptor pool bootstrap slot)).getD name
  | none => name

/-- What has to happen to the constant in slot `index`. -/
def renamedConstant (symbols : SymbolMap) (pool : ConstantPool)
    (bootstrap : List Attribute.BootstrapMethod) (index : Index) (constant : Constant) :
    Except Fault (Option PoolRename) :=
  let reference : Except Fault (Option PoolRename) := do
    let found ← pool.memberReference index
    let renamed ← renamedMember symbols (ReferenceKind.memberKind found.kind) found.owner
      found.name found.descriptor
    return renamed.map fun (name, descriptor) => .symbol name descriptor
  match constant with
  | .classRef _ => do
    let renamed ← symbols.renameReference (← pool.className index)
    return renamed.map .class_
  | .fieldRef .. | .methodRef .. | .interfaceMethodRef .. => reference
  | .dynamic _ symbol => do
    let (name, descriptor) ← pool.nameAndType symbol
    let renamed ← symbols.renameDescriptor descriptor
    return if renamed = descriptor then none else some (.symbol name renamed)
  | .invokeDynamic slot symbol => do
    let (name, descriptor) ← pool.nameAndType symbol
    let newName := renamedCallSite symbols pool bootstrap slot name descriptor
    let renamed ← symbols.renameDescriptor descriptor
    return (changed (name, descriptor) (newName, renamed)).map fun (name, descriptor) =>
      .symbol name descriptor
  | .methodType descriptor => do
    let old ← pool.utf8 descriptor
    let renamed ← symbols.renameDescriptor old
    return if renamed = old then none else some (.methodType renamed)
  | _ => .ok none

/-- What `look` finds for the items, which it also gets the positions of. -/
def collect {α β : Type} (look : Nat → α → Except Fault (Option β)) (items : List α) :
    Except Fault (List β) := do
  let found ← items.zipIdx.mapM fun (item, position) => look position item
  return found.filterMap id

def renamedConstants (symbols : SymbolMap) (pool : ConstantPool)
    (bootstrap : List Attribute.BootstrapMethod) : Except Fault (List (Index × PoolRename)) :=
  pool.entries.toList |> collect fun slot constant => do
    let index := UInt16.ofNat slot
    let renamed ← renamedConstant symbols pool bootstrap index constant
    return renamed.map fun rename => (index, rename)

def renamedMembers (symbols : SymbolMap) (file : ClassFile) (owner : String) (kind : MemberKind) :
    Except Fault (List MemberRename) :=
  file.members kind |> collect fun position member => do
    let (name, descriptor) ← file.symbol member
    let renamed ← renamedMember symbols kind owner name descriptor
    return renamed.map fun (name, descriptor) => ⟨kind, position, name, descriptor⟩

/-- The name of a nested class as its source has it: what follows the last dollar sign, or else the
last slash, without the number that local classes have in front. -/
def simpleName (name : List Char) : List Char :=
  let tail := match Text.cutLast? '$' name with
    | some (_, tail) => tail
    | none =>
      match Text.cutLast? '/' name with
      | some (_, tail) => tail
      | none => name
  tail.dropWhile Char.isDigit

/-- The new simple name for a record about a nested class, unless it keeps its name or has none. -/
def renamedInner (symbols : SymbolMap) (pool : ConstantPool) (record : Attribute.InnerClass) :
    Except Fault (Option String) := do
  if record.simpleName = 0 then return none
  else
    match ← symbols.renameReference (← pool.className record.inner) with
    | none => return none
    | some name =>
      let old ← pool.utf8 record.simpleName
      let new := String.ofList (simpleName name.toList)
      return if new.isEmpty || new = old then none else some new

def renamedInners (symbols : SymbolMap) (pool : ConstantPool) :
    List Attribute.InnerClass → Except Fault (List (Nat × String)) :=
  collect fun position record => do
    let renamed ← renamedInner symbols pool record
    return renamed.map fun name => (position, name)

def renamedEnclosing (symbols : SymbolMap) (pool : ConstantPool)
    (place : Attribute.EnclosingMethod) :
    Except Fault (Option (Attribute.EnclosingMethod × String × String)) := do
  if place.method = 0 then return none
  else
    let owner ← pool.className place.owner
    let (name, descriptor) ← pool.nameAndType place.method
    let renamed ← renamedMember symbols .method owner name descriptor
    return renamed.map fun (name, descriptor) => (place, name, descriptor)

/-- What `read` makes of the first attribute with the name, or `absent` if there is none. -/
def ofAttribute {α β : Type} (file : ClassFile) (name : String) (format : Format α) (absent : β)
    (read : α → Except Fault β) : Except Fault β :=
  match Attribute.body? file.pool name file.attributes with
  | some body => do read (← format.parse name body)
  | none => .ok absent

def ofClass (symbols : SymbolMap) (file : ClassFile) : Except Fault RenamePlan := do
  let owner ← file.name
  let bootstrap ← ofAttribute file Attribute.bootstrapMethodsName Attribute.bootstrapMethods [] .ok
  let pool ← renamedConstants symbols file.pool bootstrap
  let fields ← renamedMembers symbols file owner .field
  let methods ← renamedMembers symbols file owner .method
  let innerNames ← ofAttribute file Attribute.innerClassesName Attribute.innerClasses []
    (renamedInners symbols file.pool)
  let enclosing ← ofAttribute file Attribute.enclosingMethodName Attribute.enclosingMethod none
    (renamedEnclosing symbols file.pool)
  return ⟨pool, fields ++ methods, innerNames, enclosing⟩

end RenamePlan

end JarRemap
