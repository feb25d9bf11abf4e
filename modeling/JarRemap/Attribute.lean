import JarRemap.ConstantPool

/-!
# Attributes

Named byte strings that hang on classes, members and code. The name is a slot of the constant pool,
and the body is left alone by everything that does not know the name.
-/

namespace JarRemap

structure Attribute where
  name : Index
  body : Bytes
deriving DecidableEq, Repr

namespace Attribute

def format : Format Attribute :=
  (Format.uint16.pair (Format.block "attribute")).imap
    (fun (name, body) => ⟨name, body⟩) (fun item => (item.name, item.body))

def listFormat : Format (List Attribute) := Format.counted "attributes" format

def isNamed (pool : ConstantPool) (name : String) (item : Attribute) : Bool :=
  pool.hasText item.name name

/-- The position of the first attribute with the name. -/
def position? (pool : ConstantPool) (name : String) (attributes : List Attribute) : Option Nat :=
  attributes.findIdx? (isNamed pool name)

/-- The body of the first attribute with the name. -/
def body? (pool : ConstantPool) (name : String) (attributes : List Attribute) : Option Bytes :=
  (attributes.find? (isNamed pool name)).map Attribute.body

def setBody (position : Nat) (body : Bytes) (attributes : List Attribute) : List Attribute :=
  attributes.modify position fun item => { item with body := body }

/-- Without the attributes that have the name. -/
def remove (pool : ConstantPool) (name : String) (attributes : List Attribute) : List Attribute :=
  attributes.filter (!isNamed pool name ·)

end Attribute

end JarRemap
