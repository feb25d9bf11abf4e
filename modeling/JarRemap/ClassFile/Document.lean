import JarRemap.Attribute.Code
import JarRemap.ClassFile
import JarRemap.ConstantPool.Document

/-!
# Class files as JSON

Everything that a class file holds, with the slots of the constant pool in order.
-/

namespace JarRemap

namespace Attribute

/-- The slot of the name, the name if the slot holds a text, and the body. -/
def toJson (pool : ConstantPool) (item : Attribute) : Json :=
  .array [.ofNat item.name.toNat, .textOrNull (pool.utf8 item.name).toOption,
    .text (Bytes.hex item.body)]

/-- The attributes inside the code have no pool to name them. -/
def Code.toJson (code : Code) : Json :=
  .record [("max_stack", some (.ofNat code.maxStack.toNat)),
    ("max_locals", some (.ofNat code.maxLocals.toNat)),
    ("code", some (.text (Bytes.hex code.instructions))),
    ("exception_table", some (.text (Bytes.hex code.handlers))),
    ("attributes", some (.array (code.attributes.map fun item =>
      .array [.ofNat item.name.toNat, .text (Bytes.hex item.body)])))]

end Attribute

namespace Member

def toJson (pool : ConstantPool) (member : Member) : Json :=
  .record [("access", some (.ofNat member.access.bits.toNat)),
    ("name_index", some (.ofNat member.name.toNat)),
    ("descriptor_index", some (.ofNat member.descriptor.toNat)),
    ("attributes", some (.array (member.attributes.map (Attribute.toJson pool))))]

end Member

namespace MemberKind

def keyword : MemberKind → String
  | .field => "field"
  | .method => "method"

end MemberKind

namespace MemberView

def toJson (member : MemberView) : Json :=
  .record [("kind", some (.text member.kind.keyword)), ("name", some (.text member.name)),
    ("descriptor", some (.text member.descriptor)), ("access", some (.text member.access.text))]

end MemberView

namespace ClassFile

def toJson (file : ClassFile) : Json :=
  let members (found : List Member) : Json := .array (found.map (Member.toJson file.pool))
  .record [("version", some (.ofUInt16s [file.major, file.minor])),
    ("pool", some (.array (file.pool.entries.toList.map Constant.toJson))),
    ("access", some (.ofNat file.access.bits.toNat)),
    ("this_class", some (.ofNat file.thisClass.toNat)),
    ("super_class", some (.ofNat file.superClass.toNat)),
    ("interfaces", some (.ofUInt16s file.interfaces)), ("fields", some (members file.fields)),
    ("methods", some (members file.methods)),
    ("attributes", some (.array (file.attributes.map (Attribute.toJson file.pool))))]

end ClassFile

end JarRemap
