import JarRemap.Access.Ledger
import JarRemap.Json.Record

/-!
# Access rules as JSON

A rule tells the parts it was read from, and what follows from them.
-/

namespace JarRemap

namespace Visibility

def names : List (String × Visibility) :=
  [("public", .pub), ("protected", .prot), ("package", .pkg), ("private", .priv)]

def name (visibility : Visibility) : Option String :=
  (names.find? (·.2 == visibility)).map Prod.fst

end Visibility

namespace Finality

def names : List (String × Finality) :=
  [("set_final", .set), ("clear_final", .clear), ("none", .keep)]

def name (finality : Finality) : Option String := (names.find? (·.2 == finality)).map Prod.fst

end Finality

namespace RuleTarget

def toJson : RuleTarget → Json
  | wholeClass => .ofTexts ["class"]
  | field name => .ofTexts ["field", name]
  | method name descriptor => .ofTexts ["method", name, descriptor]
  | allFields => .ofTexts ["all_fields"]
  | allMethods => .ofTexts ["all_methods"]

end RuleTarget

namespace AccessRule

def fieldsJson (rule : AccessRule) : Json :=
  .record [("visibility", some (.textOrNull rule.visibility.name)),
    ("final_override", some (.textOrNull rule.finality.name)), ("owner", some (.text rule.owner)),
    ("member", some (.textOrNull (rule.member.map MemberPattern.name))),
    ("descriptor", some (.textOrNull (rule.member.bind MemberPattern.descriptor)))]

def toJson (rule : AccessRule) : Json :=
  .record [("fields", some rule.fieldsJson), ("target", some rule.target.toJson),
    ("key", some (.text rule.key)), ("display", some (.text rule.text)),
    ("inner", some (.bool rule.isForNestedClass)),
    ("outer", some (.textOrNull rule.outerOwner))]

end AccessRule

namespace RuleRecord

def toJson (record : RuleRecord) : Json :=
  .record [("normalized_key", some (.text record.key)), ("raw_text", some (.text record.rawText)),
    ("effective", some (.bool record.effective)), ("file", some (.text record.origin.file)),
    ("line", some (.ofNat record.origin.line))]

end RuleRecord

end JarRemap
