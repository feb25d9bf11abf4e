import JarRemap.ConstantPool
import JarRemap.Json.Record

/-!
# Constants as JSON

A constant is an array: its kind, and then what it holds. The bits of floating-point numbers are
hexadecimal digits. A long is a decimal text, since not every reader of JSON keeps all its digits.
-/

namespace JarRemap

namespace ReferenceKind

def keyword : ReferenceKind → String
  | field => "field"
  | method => "method"
  | interfaceMethod => "interface_method"

end ReferenceKind

namespace Constant

open Json (asUInt16)

def toJson (constant : Constant) : Json :=
  let row (kind : String) (parts : List Json) : Json := .array (.text kind :: parts)
  let slots (kind : String) (parts : List Index) : Json :=
    row kind (parts.map fun index => .ofNat index.toNat)
  match constant with
  | unusable => row "Unusable" []
  | utf8 text => row "Utf8" [.text text]
  | rawUtf8 bytes => row "Utf8Raw" [.text (Bytes.hex bytes)]
  | integer value => row "Integer" [.number (toString value.toInt)]
  | float bits => row "Float" [.text (Text.Hex.ofNatWide 8 bits.toNat)]
  | long value => row "Long" [.text (toString value.toInt)]
  | double bits => row "Double" [.text (Text.Hex.ofNatWide 16 bits.toNat)]
  | classRef name => slots "Class" [name]
  | string text => slots "String" [text]
  | fieldRef owner symbol => slots "Fieldref" [owner, symbol]
  | methodRef owner symbol => slots "Methodref" [owner, symbol]
  | interfaceMethodRef owner symbol => slots "InterfaceMethodref" [owner, symbol]
  | nameAndType name descriptor => slots "NameAndType" [name, descriptor]
  | methodHandle kind reference => slots "MethodHandle" [kind.toUInt16, reference]
  | methodType descriptor => slots "MethodType" [descriptor]
  | dynamic bootstrap symbol => slots "Dynamic" [bootstrap, symbol]
  | invokeDynamic bootstrap symbol => slots "InvokeDynamic" [bootstrap, symbol]
  | moduleRef name => slots "Module" [name]
  | packageRef name => slots "Package" [name]

/-- The constant of a kind that refers to one slot. -/
def ofSlot? (kind : String) (slot : Index) : Option Constant :=
  match kind with
  | "Class" => some (classRef slot)
  | "String" => some (string slot)
  | "MethodType" => some (methodType slot)
  | "Module" => some (moduleRef slot)
  | "Package" => some (packageRef slot)
  | _ => none

/-- The constant of a kind that holds two numbers, most often slots. -/
def ofSlots? (kind : String) (first second : Index) : Option Constant :=
  match kind with
  | "Fieldref" => some (fieldRef first second)
  | "Methodref" => some (methodRef first second)
  | "InterfaceMethodref" => some (interfaceMethodRef first second)
  | "NameAndType" => some (nameAndType first second)
  | "MethodHandle" => some (methodHandle first.toUInt8 second)
  | "Dynamic" => some (dynamic first second)
  | "InvokeDynamic" => some (invokeDynamic first second)
  | _ => none

def ofParts? (kind : String) : List Json → Option Constant
  | [] => if kind = "Unusable" then some unusable else none
  | [.string text] => do
    let text ← text
    match kind with
    | "Utf8" => return utf8 text
    | "Utf8Raw" => return rawUtf8 (← Bytes.ofHex? text)
    | "Float" => return float (UInt32.ofNat (← Text.Hex.toNat? text))
    | "Long" => return long (Int64.ofInt (← text.toInt?))
    | "Double" => return double (UInt64.ofNat (← Text.Hex.toNat? text))
    | _ => failure
  | [.number literal] =>
    if kind = "Integer" then literal.toInt?.map fun value => integer (Int32.ofInt value)
    else (asUInt16 (.number literal)).bind (ofSlot? kind)
  | [first, second] => do ofSlots? kind (← asUInt16 first) (← asUInt16 second)
  | _ => none

def ofJson? : Json → Option Constant
  | .array (.string (some kind) :: parts) => ofParts? kind parts
  | _ => none

end Constant

end JarRemap
