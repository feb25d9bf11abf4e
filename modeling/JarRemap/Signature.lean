import JarRemap.Descriptor.Rename

/-!
# Generic signatures

A signature says what a descriptor says and also names type variables, type arguments and bounds.
Here are its parts and the text of each; `Signature.read` in the next module is the inverse.

A class type is a name, its type arguments, and then any number of nested classes with type
arguments of their own, each behind a dot.
-/

namespace JarRemap.Signature

/-- A type without parts: a primitive type, or `V` for no value. -/
inductive Simple
  | primitive (type : Primitive)
  | void
deriving DecidableEq, Repr

def Simple.letter : Simple → Char
  | primitive type => type.letter
  | void => 'V'

inductive Wildcard
  | extending
  | super
deriving DecidableEq, Repr

def Wildcard.sign : Wildcard → Char
  | extending => '+'
  | super => '-'

mutual

inductive Reference
  | variable (name : List Char)
  | simpleArray (element : Simple)
  | array (element : Reference)
  | object (head : Segment) (nested : List Segment)

/-- A class name with its type arguments; no list of them differs from an empty one. -/
inductive Segment
  | plain (name : List Char)
  | generic (name : List Char) (arguments : List Argument)

inductive Argument
  | any
  | exact (type : Reference)
  | bounded (wildcard : Wildcard) (type : Reference)

end

/-- A type where `V` and the primitive types may stand too. -/
inductive JavaType
  | simple (type : Simple)
  | reference (type : Reference)

structure TypeParameter where
  name : List Char
  /-- What follows each colon: a type, or nothing. -/
  bounds : List (Option Reference)

inductive Body
  | method (parameters : List JavaType) (returned : JavaType) (thrown : List Reference)
  /-- The type of a field, or the superclass and interfaces of a class. -/
  | types (types : List Reference)

end JarRemap.Signature

namespace JarRemap

structure Signature where
  /-- Type parameters in angle brackets, if there are brackets. -/
  parameters : Option (List Signature.TypeParameter)
  body : Signature.Body

namespace Signature

/-! ## Texts

The text of a part is given together with the text behind it.
-/

mutual

def Reference.text (rest : List Char) : Reference → List Char
  | .variable name => 'T' :: (name ++ ';' :: rest)
  | .simpleArray element => '[' :: element.letter :: rest
  | .array element => '[' :: element.text rest
  | .object head nested => 'L' :: head.text (segmentsText (';' :: rest) nested)

def Segment.text (rest : List Char) : Segment → List Char
  | .plain name => name ++ rest
  | .generic name arguments => name ++ '<' :: argumentsText ('>' :: rest) arguments

def segmentsText (rest : List Char) : List Segment → List Char
  | [] => rest
  | segment :: others => '.' :: segment.text (segmentsText rest others)

def Argument.text (rest : List Char) : Argument → List Char
  | .any => '*' :: rest
  | .exact type => type.text rest
  | .bounded wildcard type => wildcard.sign :: type.text rest

def argumentsText (rest : List Char) : List Argument → List Char
  | [] => rest
  | argument :: others => argument.text (argumentsText rest others)

end

def JavaType.text : JavaType → List Char
  | simple type => [type.letter]
  | reference type => type.text []

def boundText (bound : Option Reference) : List Char :=
  ':' :: (match bound with
    | some type => type.text []
    | none => [])

def TypeParameter.text (parameter : TypeParameter) : List Char :=
  parameter.name ++ parameter.bounds.flatMap boundText

def Body.text : Body → List Char
  | method parameters returned thrown =>
    '(' :: (parameters.flatMap JavaType.text ++ ')' :: (returned.text ++
      thrown.flatMap fun type => '^' :: type.text []))
  | types all => all.flatMap (Reference.text [])

def text (signature : Signature) : List Char :=
  (match signature.parameters with
    | some parameters => '<' :: (parameters.flatMap TypeParameter.text ++ ['>'])
    | none => []) ++ signature.body.text

end Signature

end JarRemap
