import JarRemap.AccessFlags
import JarRemap.Descriptor

/-!
# Access rules

One rule a line: how visible the target should be at least, whether it is final, and what the
target is.

    visibility[+f|-f] owner [member[descriptor]]   # comment

Only the start of the first word tells the visibility and only its end tells about finality, so any
other word asks for package visibility. Dots count as slashes. The member `*` stands for all fields
of the owner, and `*()` for all methods.
-/

namespace JarRemap

inductive Visibility
  | pub
  | prot
  | pkg
  | priv
deriving DecidableEq, Repr

namespace Visibility

def flags : Visibility → AccessFlags
  | pub => .accPublic
  | prot => .accProtected
  | pkg => .empty
  | priv => .accPrivate

def keyword : Visibility → String
  | pub => "public"
  | prot => "protected"
  | pkg => "default"
  | priv => "private"

def ofWord (word : List Char) : Visibility :=
  if (Text.after? pub.keyword.toList word).isSome then pub
  else if (Text.after? priv.keyword.toList word).isSome then priv
  else if (Text.after? prot.keyword.toList word).isSome then prot
  else pkg

end Visibility

inductive Finality
  | set
  | clear
  | keep
deriving DecidableEq, Repr

namespace Finality

def ending : Finality → String
  | set => "+f"
  | clear => "-f"
  | keep => ""

def ofWord (word : List Char) : Finality :=
  if (Text.before? set.ending.toList word).isSome then set
  else if (Text.before? clear.ending.toList word).isSome then clear
  else keep

end Finality

/-- The member part of a rule as it is written. -/
structure MemberPattern where
  name : String
  descriptor : Option String
deriving DecidableEq, Repr

structure AccessRule where
  visibility : Visibility
  finality : Finality
  owner : String
  /-- Absent in a rule for the class itself. -/
  member : Option MemberPattern
deriving DecidableEq, Repr

/-- What a rule applies to. -/
inductive RuleTarget
  | wholeClass
  | field (name : String)
  | method (name descriptor : String)
  | allFields
  | allMethods
deriving DecidableEq, Repr

/-- Why a line holds no rule. -/
inductive RuleFault
  | missingOwner
  | fieldCount (count : Nat)
  | missingMember
  | badDescriptor (text : String)
deriving DecidableEq, Repr

def RuleFault.message : RuleFault → String
  | missingOwner => "missing owner"
  | fieldCount count => s!"expected 2 or 3 fields, found {count}"
  | missingMember => "missing member name"
  | badDescriptor text => s!"malformed method descriptor '{text}'"

namespace MemberPattern

def wildcard : String := "*"

/-- The descriptor of the pattern for all methods. -/
def noDescriptor : String := "()"

def target : MemberPattern → RuleTarget
  | ⟨name, none⟩ => if name = wildcard then .allFields else .field name
  | ⟨name, some descriptor⟩ =>
    if name = wildcard ∧ descriptor = noDescriptor then .allMethods else .method name descriptor

def text (pattern : MemberPattern) : String := pattern.name ++ pattern.descriptor.getD ""

/-- Reads a name and, from the first parenthesis on, a descriptor. -/
def parse (word : List Char) : Except RuleFault MemberPattern :=
  match word.span (· != '(') with
  | (name, []) => .ok ⟨String.ofList name, none⟩
  | (name, descriptor) =>
    let descriptor := String.ofList descriptor
    if name.isEmpty then .error .missingMember
    else if descriptor = noDescriptor ∨ Descriptor.isMethod descriptor then
      .ok ⟨String.ofList name, some descriptor⟩
    else .error (.badDescriptor descriptor)

end MemberPattern

namespace AccessRule

def target (rule : AccessRule) : RuleTarget :=
  match rule.member with
  | none => .wholeClass
  | some pattern => pattern.target

/-- What the rule applies to, as text: the owner, and after a space the member. -/
def key (rule : AccessRule) : String :=
  match rule.member with
  | none => rule.owner
  | some pattern => rule.owner ++ " " ++ pattern.text

/-- The rule as a line. -/
def text (rule : AccessRule) : String :=
  rule.visibility.keyword ++ rule.finality.ending ++ " " ++ rule.key

/-- The class around the owner, if the owner is the name of a nested class. -/
def outerOwner (rule : AccessRule) : Option String :=
  match Text.cut '$' rule.owner.toList with
  | ([], _) | (_, none) => none
  | (outer, some _) => some (String.ofList outer)

/-- The rule is for a nested class itself. -/
def isForNestedClass (rule : AccessRule) : Bool :=
  rule.member.isNone && rule.outerOwner.isSome

/-- The line without its comment and the blanks around it. -/
def stripComment (line : List Char) : List Char := Text.trim (Text.cut '#' line).1

/-- The rule that the words of a line make. -/
def ofWords : List (List Char) → Except RuleFault AccessRule
  | [] => .error (.fieldCount 0)
  | [_] => .error .missingOwner
  | [first, owner] => .ok ⟨.ofWord first, .ofWord first, String.ofList owner, none⟩
  | [first, owner, member] => do
    let pattern ← MemberPattern.parse member
    return ⟨.ofWord first, .ofWord first, String.ofList owner, some pattern⟩
  | words => .error (.fieldCount words.length)

/-- The rule of a line; a line that is empty but for a comment has none. -/
def parse (line : String) : Except RuleFault (Option AccessRule) :=
  let stripped := stripComment line.toList
  if stripped.isEmpty then .ok none
  else some <$> ofWords (Text.words (stripped.map fun c => if c = '.' then '/' else c))

end AccessRule

end JarRemap
