import JarRemap.Attribute

/-!
# Method code

Instructions and exception handlers stay bytes. What can be taken apart are the nested attributes
and, among these, the two tables of local variables.
-/

namespace JarRemap.Attribute

def codeName : String := "Code"

structure Code where
  maxStack : UInt16
  maxLocals : UInt16
  instructions : Bytes
  /-- Records of eight bytes. -/
  handlers : Bytes
  attributes : List Attribute
deriving DecidableEq, Repr

def handlerWidth : Nat := 8

def code : Format Code :=
  (Format.uint16.pair (Format.uint16.pair ((Format.block codeName).pair
    ((Format.records codeName handlerWidth).pair listFormat)))).imap
    (fun (maxStack, maxLocals, instructions, handlers, attributes) =>
      ⟨maxStack, maxLocals, instructions, handlers, attributes⟩)
    (fun code => (code.maxStack, code.maxLocals, code.instructions, code.handlers, code.attributes))

/-- The table of the variables' descriptors. -/
def localVariableTableName : String := "LocalVariableTable"

/-- The table of the variables' generic signatures, of the same shape. -/
def localVariableTypeTableName : String := "LocalVariableTypeTable"

structure LocalVariable where
  start : UInt16
  length : UInt16
  name : Index
  /-- Of the descriptor, or of the signature in a type table. -/
  descriptor : Index
  slot : UInt16
deriving DecidableEq, Repr

def LocalVariable.format : Format LocalVariable :=
  (Format.uint16.pair (Format.uint16.pair (Format.uint16.pair
    (Format.uint16.pair Format.uint16)))).imap
    (fun (start, length, name, descriptor, slot) => ⟨start, length, name, descriptor, slot⟩)
    (fun record => (record.start, record.length, record.name, record.descriptor, record.slot))

def localVariables : Format (List LocalVariable) :=
  Format.counted localVariableTableName LocalVariable.format

end JarRemap.Attribute
