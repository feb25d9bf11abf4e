import JarRemap.Fault

/-!
# Descriptors

The type of a field or method in the short form that class files use: one letter for a primitive
type, `L` name `;` for a class, and a bracket in front for an array. A method descriptor is a list
of parameter types in parentheses and a return type, which may be `V`.
-/

namespace JarRemap

inductive Primitive
  | byte
  | char
  | double
  | float
  | int
  | long
  | short
  | boolean
deriving DecidableEq, Repr

namespace Primitive

def letter : Primitive → Char
  | byte => 'B'
  | char => 'C'
  | double => 'D'
  | float => 'F'
  | int => 'I'
  | long => 'J'
  | short => 'S'
  | boolean => 'Z'

def ofLetter? : Char → Option Primitive
  | 'B' => some byte
  | 'C' => some char
  | 'D' => some double
  | 'F' => some float
  | 'I' => some int
  | 'J' => some long
  | 'S' => some short
  | 'Z' => some boolean
  | _ => none

/-- The local variable slots that a value of the type takes. -/
def slots : Primitive → Nat
  | long | double => 2
  | _ => 1

end Primitive

inductive FieldType
  | primitive (type : Primitive)
  | object (name : List Char)
  | array (element : FieldType)
deriving DecidableEq, Repr

namespace FieldType

def text : FieldType → List Char
  | primitive type => [type.letter]
  | object name => 'L' :: (name ++ [';'])
  | array element => '[' :: element.text

/-- A class name is not empty and has no semicolon. -/
def WellNamed : FieldType → Prop
  | primitive _ => True
  | object name => name ≠ [] ∧ ';' ∉ name
  | array element => element.WellNamed

def slots : FieldType → Nat
  | primitive type => type.slots
  | _ => 1

/-- The type with `depth` more brackets in front. -/
def arrays : Nat → FieldType → FieldType
  | 0, type => type
  | depth + 1, type => arrays depth (array type)

/-- The type at the front if it is no array, and what follows it. -/
def readElement? : List Char → Option (FieldType × List Char)
  | [] => none
  | 'L' :: rest =>
    match rest.span (· != ';') with
    | (name, _ :: rest) => if name.isEmpty then none else some (object name, rest)
    | (_, []) => none
  | c :: rest => (Primitive.ofLetter? c).map fun type => (primitive type, rest)

/-- The field type at the front, and what follows it. -/
def read? (source : List Char) : Option (FieldType × List Char) :=
  let (brackets, rest) := source.span (· == '[')
  (readElement? rest).map fun (element, rest) => (arrays brackets.length element, rest)

/-- The field type that the whole text spells. -/
def parse? (source : List Char) : Option FieldType :=
  match read? source with
  | some (type, []) => some type
  | _ => none

end FieldType

structure MethodType where
  parameters : List FieldType
  /-- Absent for `V`. -/
  returned : Option FieldType
deriving DecidableEq, Repr

namespace MethodType

def text (type : MethodType) : List Char :=
  '(' :: type.parameters.flatMap FieldType.text ++ ')' ::
    (match type.returned with
      | some returned => returned.text
      | none => ['V'])

/-- The parameter types up to the closing parenthesis, behind those found so far, latest first, and
what follows the parenthesis. Every type takes a character, so `rounds` are enough for a text no
longer than that. -/
def readParameters? : Nat → List FieldType → List Char → Option (List FieldType × List Char)
  | _, found, ')' :: rest => some (found.reverse, rest)
  | 0, _, _ => none
  | rounds + 1, found, source =>
    match FieldType.read? source with
    | some (type, rest) => readParameters? rounds (type :: found) rest
    | none => none

def parse? : List Char → Option MethodType
  | '(' :: source => do
    let (parameters, rest) ← readParameters? source.length [] source
    if rest = ['V'] then return ⟨parameters, none⟩
    else return ⟨parameters, some (← FieldType.parse? rest)⟩
  | _ => none

end MethodType

namespace Descriptor

def isField (descriptor : String) : Bool := (FieldType.parse? descriptor.toList).isSome

def isMethod (descriptor : String) : Bool := (MethodType.parse? descriptor.toList).isSome

/-- The local variable slots of each parameter of a method descriptor. -/
def parameterSlots (descriptor : String) : Except Fault (List Nat) :=
  match MethodType.parse? descriptor.toList with
  | some type => .ok (type.parameters.map FieldType.slots)
  | none => .error (.badDescriptor descriptor)

end Descriptor

end JarRemap
