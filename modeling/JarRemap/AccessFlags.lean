import JarRemap.Text.Blank
import JarRemap.Text.Hex

/-!
# Access flags

The sixteen access and property bits of classes, members and inner-class records. Three bits have
two names, one for each place where they occur. All bits are kept, whether they make sense together
or not.
-/

namespace JarRemap

structure AccessFlags where
  bits : UInt16
deriving DecidableEq, Repr

namespace AccessFlags

def empty : AccessFlags := ⟨0⟩
def accPublic : AccessFlags := ⟨0x0001⟩
def accPrivate : AccessFlags := ⟨0x0002⟩
def accProtected : AccessFlags := ⟨0x0004⟩
def accStatic : AccessFlags := ⟨0x0008⟩
def accFinal : AccessFlags := ⟨0x0010⟩
def accSynthetic : AccessFlags := ⟨0x1000⟩
def accEnum : AccessFlags := ⟨0x4000⟩

/-- The bits that say who may use the class or member; none of them means its package. -/
def visibilityMask : AccessFlags := ⟨0x0007⟩

def union (a b : AccessFlags) : AccessFlags := ⟨a.bits ||| b.bits⟩

def without (a b : AccessFlags) : AccessFlags := ⟨a.bits &&& ~~~b.bits⟩

/-- All bits of `b` are set in `a`. -/
def contains (a b : AccessFlags) : Bool := a.bits &&& b.bits == b.bits

def visibility (flags : AccessFlags) : AccessFlags := ⟨flags.bits &&& visibilityMask.bits⟩

/-- The visibility bits of `shown` in place of those of `flags`. -/
def withVisibility (flags shown : AccessFlags) : AccessFlags :=
  (flags.without visibilityMask).union shown.visibility

/-- Every name, in bit order; of two names of one bit, the first is the one that is written. -/
def named : List (String × AccessFlags) :=
  [("PUBLIC", ⟨0x0001⟩), ("PRIVATE", ⟨0x0002⟩), ("PROTECTED", ⟨0x0004⟩), ("STATIC", ⟨0x0008⟩),
    ("FINAL", ⟨0x0010⟩), ("SUPER", ⟨0x0020⟩), ("SYNCHRONIZED", ⟨0x0020⟩), ("VOLATILE", ⟨0x0040⟩),
    ("BRIDGE", ⟨0x0040⟩), ("TRANSIENT", ⟨0x0080⟩), ("VARARGS", ⟨0x0080⟩), ("NATIVE", ⟨0x0100⟩),
    ("INTERFACE", ⟨0x0200⟩), ("ABSTRACT", ⟨0x0400⟩), ("STRICT", ⟨0x0800⟩), ("SYNTHETIC", ⟨0x1000⟩),
    ("ANNOTATION", ⟨0x2000⟩), ("ENUM", ⟨0x4000⟩), ("MODULE", ⟨0x8000⟩)]

/-- Keeps the first of the names that stand for the same bit. -/
def distinctNames : List (String × AccessFlags) → List (String × AccessFlags)
  | [] => []
  | (name, flag) :: rest =>
    (name, flag) :: (distinctNames rest).filter fun (_, other) => other != flag

/-- The names of the set bits. -/
def text (flags : AccessFlags) : String :=
  let names := (distinctNames named).filterMap fun (name, flag) =>
    if flags.contains flag then some name else none
  " | ".intercalate names

/-- One name, or `0x` and a number. -/
def ofPart? (part : List Char) : Option AccessFlags :=
  match part with
  | '0' :: 'x' :: digits => (Text.Hex.uint16? digits).map AccessFlags.mk
  | _ => (named.find? fun (name, _) => name.toList == part).map Prod.snd

/-- Reads names and numbers between bars; nothing at all stands for no flag. -/
def ofText? (source : String) : Option AccessFlags :=
  if (Text.trim source.toList).isEmpty then some empty
  else
    (Text.splitWhen (· == '|') source.toList).foldlM
      (fun flags part => (ofPart? (Text.trim part)).map flags.union) empty

end AccessFlags

end JarRemap
