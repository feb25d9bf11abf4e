import JarRemap.Attribute
import JarRemap.AccessFlags

/-!
# Attributes about nested classes

`InnerClasses` lists the nested classes that a class mentions, and `EnclosingMethod` says where a
local or anonymous class stands.
-/

namespace JarRemap.Attribute

def accessFormat : Format AccessFlags := Format.uint16.imap AccessFlags.mk AccessFlags.bits

def innerClassesName : String := "InnerClasses"

structure InnerClass where
  inner : Index
  /-- Zero for a local or anonymous class. -/
  outer : Index
  /-- Zero for an anonymous class. -/
  simpleName : Index
  access : AccessFlags
deriving DecidableEq, Repr

def InnerClass.format : Format InnerClass :=
  (Format.uint16.pair (Format.uint16.pair (Format.uint16.pair accessFormat))).imap
    (fun (inner, outer, simpleName, access) => ⟨inner, outer, simpleName, access⟩)
    (fun record => (record.inner, record.outer, record.simpleName, record.access))

def innerClasses : Format (List InnerClass) :=
  Format.counted innerClassesName InnerClass.format

def enclosingMethodName : String := "EnclosingMethod"

structure EnclosingMethod where
  owner : Index
  /-- A name and type, or zero for a class outside every method. -/
  method : Index
deriving DecidableEq, Repr

def enclosingMethod : Format EnclosingMethod :=
  (Format.uint16.pair Format.uint16).imap
    (fun (owner, method) => ⟨owner, method⟩) (fun place => (place.owner, place.method))

end JarRemap.Attribute
