import JarRemap.Access.Rule

/-!
# Member names for rules

A table of old and new member names, read from rows of comma separated columns. Rules may be written
with the old names.
-/

namespace JarRemap

/-- Old and new names, latest first. -/
structure MemberNames where
  rows : List (String × String)
deriving DecidableEq, Repr

namespace MemberNames

def empty : MemberNames := ⟨[]⟩

def get? (names : MemberNames) (old : String) : Option String :=
  (names.rows.find? (·.1 == old)).map Prod.snd

/-- A later name takes the place of an earlier one. -/
def insert (names : MemberNames) (old new : String) : MemberNames :=
  ⟨(old, new) :: names.rows.filter (·.1 != old)⟩

def size (names : MemberNames) : Nat := names.rows.length

/-- The first column of the header row. -/
def headerMark : String := "searge"

/-- What a line of a table says. -/
inductive Row
  | none
  | names (old new : String)
  | malformed
deriving DecidableEq, Repr

/-- The first two columns, which are taken as they are, blanks included. -/
def Row.ofLine (line : String) : Row :=
  if (Text.trim line.toList).isEmpty then none
  else
    match Text.splitWhen (· == ',') line.toList with
    | old :: new :: _ =>
      if String.ofList old = headerMark then none
      else names (String.ofList old) (String.ofList new)
    | _ => malformed

/-- A line that is no row. -/
structure RowFault where
  file : String
  line : Nat
  text : String
deriving DecidableEq, Repr

def RowFault.message (fault : RowFault) : String :=
  s!"{fault.file}:{fault.line}: invalid rename row '{fault.text}'"

/-- Adds the rows of the lines from `number` on, behind the count of those added so far. The rows
before a malformed one stay added. -/
def addLines (file : String) (number added : Nat) :
    List String → ExceptT RowFault (StateM MemberNames) Nat
  | [] => return added
  | line :: rest =>
    match Row.ofLine line with
    | .none => addLines file (number + 1) added rest
    | .malformed => throw ⟨file, number, line⟩
    | .names old new => do
      modify (·.insert old new)
      addLines file (number + 1) (added + 1) rest

/-- Adds every row of a text, and says how many there were. -/
def addText (file text : String) : ExceptT RowFault (StateM MemberNames) Nat :=
  addLines file 1 0 (Text.lines text)

/-- The rule with the new name of its member; the descriptor stays as it is written. -/
def renameRule (names : MemberNames) (rule : AccessRule) : AccessRule :=
  match rule.member with
  | some pattern =>
    match names.get? pattern.name with
    | some new => { rule with member := some { pattern with name := new } }
    | none => rule
  | none => rule

/-- Whether the table has a name for the member of the rule. -/
def renamesRule (names : MemberNames) (rule : AccessRule) : Bool :=
  (rule.member.bind fun pattern => names.get? pattern.name).isSome

end MemberNames

end JarRemap
