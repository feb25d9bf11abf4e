import JarRemap.Mapping

/-!
# SRG files

A mapping table as text, one entry a line behind a tag that tells its kind:

    PK: old/package new/package
    CL: old/Class new/Class
    FD: old/Class/field new/Class/field
    MD: old/Class/method (I)V new/Class/method (I)V

A `#` starts a comment. Every line that is not empty must be an entry.
-/

namespace JarRemap.Srg

/-- Why a line is no entry. -/
inductive Reason
  | missingTag
  | unknownTag
  | fieldCount
  | badMember
  | badDescriptor
deriving DecidableEq, Repr

def Reason.message : Reason → String
  | missingTag => "missing record tag"
  | unknownTag => "unknown record tag"
  | fieldCount => "wrong number of fields"
  | badMember => "member symbol must be owner/name"
  | badDescriptor => "malformed method descriptor"

/-- What is wrong with a text. -/
inductive SrgFault
  | badLine (number : Nat) (text : String) (reason : Reason)
  | duplicate (key : String)
deriving DecidableEq, Repr

def SrgFault.message (file : String) : SrgFault → String
  | badLine number text reason =>
    s!"{file}:{number}: invalid mapping line '{text}': {reason.message}"
  | duplicate key => s!"duplicate mapping for {key}"

/-- The owner and the name of a member, which stand on the two sides of the last slash. -/
def member (word : List Char) : Except Reason (String × String) :=
  match Text.cutLast? '/' word with
  | some (owner, name) =>
    if owner.isEmpty || name.isEmpty then .error .badMember
    else .ok (String.ofList owner, String.ofList name)
  | none => .error .badMember

def fieldEntry (old new : List Char) : Except Reason MappingEntry := do
  let (oldOwner, oldName) ← member old
  let (newOwner, newName) ← member new
  return ⟨.field, oldOwner, newOwner, some oldName, some newName, none, none⟩

def methodEntry (old oldDescriptor new newDescriptor : List Char) : Except Reason MappingEntry := do
  let (oldOwner, oldName) ← member old
  let (newOwner, newName) ← member new
  let oldText := String.ofList oldDescriptor
  let newText := String.ofList newDescriptor
  if Descriptor.isMethod oldText && Descriptor.isMethod newText then
    return ⟨.method, oldOwner, newOwner, some oldName, some newName, some oldText, some newText⟩
  else throw .badDescriptor

/-- The entry of a line without comment and outer blanks. -/
def entry (line : List Char) : Except Reason MappingEntry :=
  match Text.cut ':' line with
  | (_, none) => .error .missingTag
  | (tag, some rest) =>
    match String.ofList (Text.trim tag), Text.words rest with
    | "PK", [old, new] => .ok (.ofOwners .package (String.ofList old) (String.ofList new))
    | "CL", [old, new] => .ok (.ofOwners .class_ (String.ofList old) (String.ofList new))
    | "FD", [old, new] => fieldEntry old new
    | "MD", [old, oldDescriptor, new, newDescriptor] =>
      methodEntry old oldDescriptor new newDescriptor
    | tag, _ =>
      if tag ∈ ["PK", "CL", "FD", "MD"] then .error .fieldCount else .error .unknownTag

/-- Adds the entries of the lines from `number` on. -/
def addLines (number : Nat) (table : MappingTable) : List String → Except SrgFault MappingTable
  | [] => .ok table
  | line :: rest =>
    let stripped := Text.trim (Text.cut '#' line.toList).1
    if stripped.isEmpty then addLines (number + 1) table rest
    else do
      let found ← (entry stripped).mapError (SrgFault.badLine number line)
      let table ← (table.push found).mapError SrgFault.duplicate
      addLines (number + 1) table rest

/-- The table of a text, or what is wrong with its first wrong line. -/
def parse (text : String) : Except SrgFault MappingTable :=
  addLines 1 .empty (Text.lines text)

end JarRemap.Srg
