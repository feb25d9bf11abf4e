import JarRemap.Attribute.Nesting

/-!
# Attributes of methods and of call sites
-/

namespace JarRemap.Attribute

def signatureName : String := "Signature"

/-- A generic signature, as a slot that holds its text. -/
def signature : Format Index := Format.uint16

def exceptionsName : String := "Exceptions"

/-- The class entries of the checked exceptions that a method declares. -/
def exceptions : Format (List Index) := Format.counted exceptionsName Format.uint16

def methodParametersName : String := "MethodParameters"

structure MethodParameter where
  /-- Zero for a parameter without a name. -/
  name : Index
  access : AccessFlags
deriving DecidableEq, Repr

def MethodParameter.format : Format MethodParameter :=
  (Format.uint16.pair accessFormat).imap
    (fun (name, access) => ⟨name, access⟩) (fun parameter => (parameter.name, parameter.access))

def methodParameters : Format (List MethodParameter) :=
  Format.countedByte methodParametersName MethodParameter.format

def bootstrapMethodsName : String := "BootstrapMethods"

/-- How the target of a dynamic call is found: a method handle and its static arguments. -/
structure BootstrapMethod where
  handle : Index
  arguments : List Index
deriving DecidableEq, Repr

def BootstrapMethod.format : Format BootstrapMethod :=
  (Format.uint16.pair (Format.counted bootstrapMethodsName Format.uint16)).imap
    (fun (handle, arguments) => ⟨handle, arguments⟩)
    (fun bootstrap => (bootstrap.handle, bootstrap.arguments))

def bootstrapMethods : Format (List BootstrapMethod) :=
  Format.counted bootstrapMethodsName BootstrapMethod.format

end JarRemap.Attribute
