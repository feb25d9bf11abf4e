import JarRemap.Dictionary
import JarRemap.Json.Read

/-!
# Records in JSON

A record is written as an object, or as an array of its fields in the order of their declaration, of
which fields at the end may be missing. Other members of the object do not matter. An optional field
may be null; a field with a default may be missing but not null.
-/

namespace JarRemap.Json

def asText : Json → Option String
  | .string text => text
  | _ => none

def asBool : Json → Option Bool
  | .bool value => some value
  | _ => none

/-- A literal of digits alone. -/
def asNat : Json → Option Nat
  | .number literal => if literal.toList.all Char.isDigit then literal.toNat? else none
  | _ => none

def asUInt16 (value : Json) : Option UInt16 :=
  (asNat value).bind fun number =>
    if number < 65536 then some (UInt16.ofNat number) else none

def asUInt32 (value : Json) : Option UInt32 :=
  (asNat value).bind fun number =>
    if number < 4294967296 then some (UInt32.ofNat number) else none

def asList {α : Type} (decode : Json → Option α) : Json → Option (List α)
  | .array items => items.mapM decode
  | _ => none

/-- The last of several members with one name counts, but all of them must make sense. -/
def asDictionary {α : Type} (decode : Json → Option α) : Json → Option (Dictionary α)
  | .object members => do
    let entries ← members.mapM fun (name, value) => return (← name, ← decode value)
    return .ofList entries
  | _ => none

def ofDictionary {α : Type} (encode : α → Json) (table : Dictionary α) : Json :=
  .object (table.entries.map fun (name, value) => (some name, encode value))

/-- The fields that are there, of a record with fields of these names. No name may be a hole, and no
field may be there twice. -/
def fields? (names : List String) : Json → Option (List (String × Json))
  | .object members => do
    let members ← members.mapM fun (name, value) => return (← name, value)
    let known := members.filter (·.1 ∈ names)
    if (known.map Prod.fst).Nodup then some known else none
  | .array items => if items.length ≤ names.length then some (names.zip items) else none
  | _ => none

def required {α : Type} (decode : Json → Option α) (name : String)
    (fields : List (String × Json)) : Option α :=
  (fields.lookup name).bind decode

def optional {α : Type} (decode : Json → Option α) (name : String)
    (fields : List (String × Json)) : Option (Option α) :=
  match fields.lookup name with
  | none | some .null => some none
  | some value => some <$> decode value

def withDefault {α : Type} (default : α) (decode : Json → Option α) (name : String)
    (fields : List (String × Json)) : Option α :=
  match fields.lookup name with
  | none => some default
  | some value => decode value

end JarRemap.Json
