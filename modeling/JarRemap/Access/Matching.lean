import JarRemap.Access.Merge
import JarRemap.TrackedClass

/-!
# Applying one rule to a class

A rule for a member matches by the member's current name; only if there is no such member, the names
that the members had at first count. A descriptor may be written in old or in new names.
-/

namespace JarRemap

/-- A member of a class with its current and its first name and descriptor. -/
structure MemberNaming where
  name : String
  descriptor : String
  /-- Absent for a member that was added later. -/
  first : Option (String × String)
deriving DecidableEq, Repr

namespace MemberNaming

def ofMember (pool : ConstantPool) (member : Member) (first : Option (String × String)) :
    MemberNaming :=
  ⟨(pool.utf8 member.name).toOption.getD "", (pool.utf8 member.descriptor).toOption.getD "", first⟩

/-- Any descriptor will do if none is asked for. -/
def hasDescriptor (naming : MemberNaming) : Option String → Bool
  | none => true
  | some wanted => naming.descriptor == wanted || naming.first.any (·.2 == wanted)

def matchesCurrent (name : String) (descriptor : Option String) (naming : MemberNaming) : Bool :=
  naming.name == name && naming.hasDescriptor descriptor

def matchesFirst (name : String) (descriptor : Option String) (naming : MemberNaming) : Bool :=
  naming.first.any (·.1 == name) && naming.hasDescriptor descriptor

end MemberNaming

namespace TrackedClass

def namings (tracked : TrackedClass) (kind : MemberKind) : List MemberNaming :=
  (tracked.current.members kind).zipIdx.map fun (member, position) =>
    MemberNaming.ofMember tracked.current.pool member ((tracked.first.members kind)[position]?)

/-- For every member of the kind, whether the rule is for it. -/
def matching (tracked : TrackedClass) (kind : MemberKind) (name : String)
    (descriptor : Option String) : List Bool :=
  let namings := tracked.namings kind
  if namings.any (MemberNaming.matchesCurrent name descriptor) then
    namings.map (MemberNaming.matchesCurrent name descriptor)
  else
    namings.map (MemberNaming.matchesFirst name descriptor)

end TrackedClass

namespace AccessRule

/-- The kind of members that the rule is for, and for each of them whether it matches; nothing for a
rule for the class itself. -/
def selection (rule : AccessRule) (tracked : TrackedClass) : Option (MemberKind × List Bool) :=
  match rule.target with
  | .wholeClass => none
  | .field name => some (.field, tracked.matching .field name none)
  | .method name descriptor => some (.method, tracked.matching .method name (some descriptor))
  | .allFields => some (.field, tracked.current.fields.map fun _ => true)
  | .allMethods => some (.method, tracked.current.methods.map fun _ => true)

def mergeMember (rule : AccessRule) (member : Member) (selected : Bool) : Member :=
  if selected then { member with access := member.access.merged rule } else member

/-- The class after the rule, and whether the rule matched anything at all. -/
def applied (rule : AccessRule) (tracked : TrackedClass) : TrackedClass × Bool :=
  let file := tracked.current
  match rule.selection tracked with
  | none => ({ tracked with current := { file with access := file.access.merged rule } }, true)
  | some (kind, selected) =>
    let members := List.zipWith rule.mergeMember (file.members kind) selected
    ({ tracked with current := file.withMembers kind members }, selected.any id)

/-- The access values of the class and its members. -/
def accessValues (file : ClassFile) : AccessFlags × List AccessFlags × List AccessFlags :=
  (file.access, file.fields.map Member.access, file.methods.map Member.access)

/-- Applies the rule, and says whether an access value changed; nothing if nothing matched. -/
def apply (rule : AccessRule) (tracked : TrackedClass) : TrackedClass × Option Bool :=
  let (after, matched) := rule.applied tracked
  (after,
    if matched then some (accessValues after.current != accessValues tracked.current) else none)

end AccessRule

end JarRemap
