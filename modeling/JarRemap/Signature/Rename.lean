import JarRemap.Signature.Read
import JarRemap.Text.Blank

/-!
# Class names in signatures

A nested class behind a dot is a class of its own: its name is that of the class before it, a dollar
sign and the text behind the dot. A class that is not renamed itself moves along with the class it
is nested in.
-/

namespace JarRemap.Signature

/-- The name of a class nested in `outer`. -/
def nestedName (outer : String) (simple : List Char) : String :=
  outer ++ "$" ++ String.ofList simple

/-- What is written behind the dot for a class now called `inner` and nested in `outer`: what the
name adds to that of the outer class, or else what follows its last dollar sign. -/
def nestedText (outer inner : String) (old : List Char) : List Char :=
  match Text.after? (nestedName outer []).toList inner.toList with
  | some rest => rest
  | none =>
    match Text.cutLast? '$' inner.toList with
    | some (_, rest) => rest
    | none => old

/-- A class nested in one that was called `old` and is now called `new`: what it was called, what it
is called now, and what is written for it. -/
structure Nesting where
  old : String
  new : String
  written : List Char

/-- Without a new name of its own, a nested class is written as before. -/
def nesting (names : Renaming) (old new : String) (simple : List Char) : Nesting :=
  let oldInner := nestedName old simple
  match names oldInner with
  | some newInner => ⟨oldInner, newInner, nestedText new newInner simple⟩
  | none => ⟨oldInner, nestedName new simple, simple⟩

mutual

def Reference.rename (names : Renaming) : Reference → Reference
  | .variable name => .variable name
  | .simpleArray element => .simpleArray element
  | .array element => .array (element.rename names)
  | .object (.plain name) nested =>
    let old := String.ofList name
    let new := names.apply old
    .object (.plain new.toList) (renameNested names old new nested)
  | .object (.generic name arguments) nested =>
    let old := String.ofList name
    let new := names.apply old
    .object (.generic new.toList (renameArguments names arguments))
      (renameNested names old new nested)

/-- Renames the classes nested in one that was called `old` and is now called `new`. -/
def renameNested (names : Renaming) (old new : String) : List Segment → List Segment
  | [] => []
  | .plain simple :: rest =>
    let inner := nesting names old new simple
    .plain inner.written :: renameNested names inner.old inner.new rest
  | .generic simple arguments :: rest =>
    let inner := nesting names old new simple
    .generic inner.written (renameArguments names arguments) ::
      renameNested names inner.old inner.new rest

def Argument.rename (names : Renaming) : Argument → Argument
  | .any => .any
  | .exact type => .exact (type.rename names)
  | .bounded wildcard type => .bounded wildcard (type.rename names)

def renameArguments (names : Renaming) : List Argument → List Argument
  | [] => []
  | argument :: rest => argument.rename names :: renameArguments names rest

end

def JavaType.rename (names : Renaming) : JavaType → JavaType
  | simple type => simple type
  | reference type => reference (type.rename names)

def TypeParameter.rename (names : Renaming) (parameter : TypeParameter) : TypeParameter :=
  { parameter with bounds := parameter.bounds.map (·.map (Reference.rename names)) }

def Body.rename (names : Renaming) : Body → Body
  | method parameters returned thrown =>
    .method (parameters.map (JavaType.rename names)) (returned.rename names)
      (thrown.map (Reference.rename names))
  | types all => .types (all.map (Reference.rename names))

def rename (names : Renaming) (signature : Signature) : Signature :=
  ⟨signature.parameters.map (·.map (TypeParameter.rename names)),
    signature.body.rename names⟩

/-- The text of a signature with every class name renamed. -/
def renameText (names : Renaming) (source : String) : Except Fault String :=
  match read source with
  | .ok signature => .ok (String.ofList (signature.rename names).text)
  | .error offset => .error (.badDescriptor s!"{source} (at {offset})")

end JarRemap.Signature
