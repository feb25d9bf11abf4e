import JarRemap.Json.Record
import JarRemap.Structure

/-!
# Structural metadata as JSON

Every record is an object, and what is absent is left out.

    {
      "com/example/Widget$Part": {
        "enclosingMethod": { "owner": "com/example/Widget", "name": "build", "desc": "()V" },
        "innerClasses": [{ "inner_class": "com/example/Widget$Part", "access": "9" }],
        "signature": "Ljava/lang/Object;",
        "methods": { "resize (I)V": { "parameters": ["size"] } }
      }
    }
-/

namespace JarRemap

open Json (asText asUInt32 asList asDictionary required optional withDefault)

namespace EnclosingRecord

def toJson (record : EnclosingRecord) : Json :=
  .record [("owner", some (.text record.owner)), ("name", record.name.map .text),
    ("desc", record.descriptor.map .text)]

def ofJson? (json : Json) : Option EnclosingRecord := do
  let fields ← json.fields? ["owner", "name", "desc"]
  return ⟨← required asText "owner" fields, ← optional asText "name" fields,
    ← optional asText "desc" fields⟩

end EnclosingRecord

namespace InnerRecord

def toJson (record : InnerRecord) : Json :=
  .record [("inner_class", some (.text record.innerClass)),
    ("outer_class", record.outerClass.map .text), ("inner_name", record.innerName.map .text),
    ("access", record.access.map .text),
    ("start", record.start.map fun number => .ofNat number.toNat)]

def ofJson? (json : Json) : Option InnerRecord := do
  let fields ← json.fields? ["inner_class", "outer_class", "inner_name", "access", "start"]
  return ⟨← required asText "inner_class" fields,
    ← optional asText "outer_class" fields, ← optional asText "inner_name" fields,
    ← optional asText "access" fields, ← optional asUInt32 "start" fields⟩

end InnerRecord

namespace MethodStructure

def toJson (record : MethodStructure) : Json :=
  .record [("exceptions", record.exceptions.map .ofTexts),
    ("parameters", record.parameters.map .ofTexts), ("signature", record.signature.map .text)]

def ofJson? (json : Json) : Option MethodStructure := do
  let fields ← json.fields? ["exceptions", "parameters", "signature"]
  return ⟨← optional (asList asText) "exceptions" fields,
    ← optional (asList asText) "parameters" fields,
    ← optional asText "signature" fields⟩

end MethodStructure

namespace ClassStructure

def toJson (record : ClassStructure) : Json :=
  .record [("enclosingMethod", record.enclosingMethod.map EnclosingRecord.toJson),
    ("innerClasses", record.innerClasses.map fun records =>
      .array (records.map InnerRecord.toJson)),
    ("signature", record.signature.map .text),
    ("methods", if record.methods.size = 0 then none
      else some (.ofDictionary MethodStructure.toJson record.methods))]

def ofJson? (json : Json) : Option ClassStructure := do
  let fields ← json.fields? ["enclosingMethod", "innerClasses", "signature", "methods"]
  return ⟨← optional EnclosingRecord.ofJson? "enclosingMethod" fields,
    ← optional (asList InnerRecord.ofJson?) "innerClasses" fields,
    ← optional asText "signature" fields,
    ← withDefault .empty (asDictionary MethodStructure.ofJson?) "methods" fields⟩

end ClassStructure

namespace StructureTable

def toJson (table : StructureTable) : Json := .ofDictionary ClassStructure.toJson table

def ofJson? (json : Json) : Option StructureTable :=
  asDictionary ClassStructure.ofJson? json

/-- The table as a document. -/
def print (table : StructureTable) : String := (toJson table).pretty

def read? (document : String) : Option StructureTable := (Json.read? document).bind ofJson?

end StructureTable

end JarRemap
