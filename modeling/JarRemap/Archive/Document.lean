import JarRemap.ArchiveEntry
import JarRemap.Json

/-!
# Archive entries as JSON

An entry tells its bytes, its time down to the second, and what its name says about it.
-/

namespace JarRemap

namespace Timestamp

def toJson (stamp : Timestamp) : Json :=
  .array ([stamp.year, stamp.month, stamp.day, stamp.hour, stamp.minute, stamp.second].map .ofNat)

end Timestamp

namespace ArchiveEntry

def toJson (entry : ArchiveEntry) : Json :=
  .record [("name", some (.text entry.name)), ("dir", some (.bool entry.isDirectory)),
    ("hex", some (.text (Bytes.hex entry.data))), ("modified", some entry.modified.toJson),
    ("is_class", some (.bool entry.isClass)), ("is_metadata", some (.bool entry.isMetadata))]

end ArchiveEntry

end JarRemap
