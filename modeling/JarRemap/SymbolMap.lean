import JarRemap.Hierarchy
import JarRemap.Mapping
import JarRemap.Signature.Rename

/-!
# New names for symbols

Classes are renamed by the mapping table alone. A member is looked up in the class through which it
is referred to and then in all supertypes of that class, so an overriding or inherited member takes
the name that the table gives to the declaration.
-/

namespace JarRemap

structure SymbolMap where
  table : MappingTable
  hierarchy : Hierarchy
deriving DecidableEq, Repr

namespace SymbolMap

/-- Methods that every class may have and that are never renamed. -/
def reservedMethods : List String := ["<init>", "<clinit>"]

/-- What the class says, or else the first of its ancestors that says anything. -/
def inherited (symbols : SymbolMap) (owner : String) (look : String → Option String) :
    Option String :=
  (look owner).or ((symbols.hierarchy.ancestors owner).findSome? look)

/-- The new name of a member, unless it keeps its name. A field is found by its name alone. -/
def member? (symbols : SymbolMap) (kind : MemberKind) (owner name descriptor : String) :
    Option String :=
  match kind with
  | .field => symbols.inherited owner fun class_ => symbols.table.field? class_ name
  | .method =>
    if name ∈ reservedMethods then none
    else symbols.inherited owner fun class_ => symbols.table.method? class_ name descriptor

/-- The new name of the method that a call site implements, where the site makes an object of type
`interface`. Without the method's erased descriptor, its name alone has to tell it. -/
def callSite? (symbols : SymbolMap) (interface name : String) (erased : Option String) :
    Option String :=
  match erased with
  | some descriptor => symbols.member? .method interface name descriptor
  | none => symbols.inherited interface fun class_ => symbols.table.methodByName? class_ name

def renameDescriptor (symbols : SymbolMap) (descriptor : String) : Except Fault String :=
  Descriptor.rename symbols.table.class? descriptor

def renameSignature (symbols : SymbolMap) (signature : String) : Except Fault String :=
  Signature.renameText symbols.table.class? signature

def renameReference (symbols : SymbolMap) (name : String) : Except Fault (Option String) :=
  Descriptor.renameReference symbols.table.class? name

end SymbolMap

end JarRemap
