import JarRemap.Access.Rule

/-!
# Merging a rule into access flags

A rule never makes anything less visible: what is private takes whatever the rule asks for, and
what is public stays public. Flags with several visibility bits at once stand for no visibility, and
a merge drops all of these bits.

Finality is set or cleared afterwards, and no other bit changes.
-/

namespace JarRemap

namespace Visibility

/-- The visibility that the bits stand for, if at most one of them is set. -/
def ofFlags? (flags : AccessFlags) : Option Visibility :=
  [priv, pkg, prot, pub].find? fun visibility => flags.visibility == visibility.flags

/-- The wider one of two visibilities. -/
def wider : Visibility → Visibility → Visibility
  | priv, asked => asked
  | pkg, priv => pkg
  | pkg, asked => asked
  | prot, pub => pub
  | prot, _ => prot
  | pub, _ => pub

end Visibility

namespace AccessFlags

/-- The flags with the visibility that a rule asks for, if that is wider. -/
def widened (flags : AccessFlags) (asked : Visibility) : AccessFlags :=
  flags.withVisibility <|
    match Visibility.ofFlags? flags with
    | some current => (current.wider asked).flags
    | none => empty

def withFinality (flags : AccessFlags) : Finality → AccessFlags
  | .set => flags.union accFinal
  | .clear => flags.without accFinal
  | .keep => flags

def merged (flags : AccessFlags) (rule : AccessRule) : AccessFlags :=
  (flags.widened rule.visibility).withFinality rule.finality

end AccessFlags

end JarRemap
