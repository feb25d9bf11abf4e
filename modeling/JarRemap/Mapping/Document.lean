import JarRemap.Json.Record
import JarRemap.Mapping

/-!
# Mapping entries as JSON
-/

namespace JarRemap

open Json (asText required optional)

namespace MappingKind

def names : List (String × MappingKind) :=
  [("package", .package), ("class", .class_), ("field", .field), ("method", .method)]

def name (kind : MappingKind) : Option String := (names.find? (·.2 == kind)).map Prod.fst

end MappingKind

namespace MappingEntry

def toJson (entry : MappingEntry) : Json :=
  .record [("kind", some (.textOrNull entry.kind.name)), ("owner_old", some (.text entry.oldOwner)),
    ("owner_new", some (.text entry.newOwner)), ("member_old", some (.textOrNull entry.oldMember)),
    ("member_new", some (.textOrNull entry.newMember)),
    ("descriptor", some (.textOrNull entry.oldDescriptor)),
    ("new_descriptor", some (.textOrNull entry.newDescriptor))]

def ofJson? (json : Json) : Option MappingEntry := do
  let fields ← json.fields? ["kind", "owner_old", "owner_new", "member_old", "member_new",
    "descriptor", "new_descriptor"]
  let kind ← required asText "kind" fields
  return ⟨← MappingKind.names.lookup kind, ← required asText "owner_old" fields,
    ← required asText "owner_new" fields, ← optional asText "member_old" fields,
    ← optional asText "member_new" fields, ← optional asText "descriptor" fields,
    ← optional asText "new_descriptor" fields⟩

end MappingEntry

end JarRemap
