import JarRemap.Signature

/-!
# Reading signatures

A recursive descent over the characters. What is reported of a text that is no signature is the
place where it stopped making sense, so a failing reader returns the characters that were left.

Nesting costs characters, so the length of the text bounds the depth of the descent and the rounds
of every loop in it.
-/

namespace JarRemap.Signature

/-- Reads the front of the characters; a failure holds the characters from there on. -/
abbrev Scan := StateT (List Char) (Except (List Char))

namespace Scan

def fail {α : Type} : Scan α := fun source => .error source

def next? : Scan (Option Char) := fun source => .ok (source.head?, source)

def expect (c : Char) : Scan Unit := fun source =>
  match source with
  | d :: rest => if d = c then .ok ((), rest) else .error source
  | [] => .error source

/-- A name, which ends before any of the `stops`; the text may not end before that. -/
def name (stops : List Char) : Scan (List Char) := fun source =>
  match source.span (!stops.contains ·) with
  | ([], rest) => .error rest
  | (_, []) => .error []
  | (found, rest) => .ok (found, rest)

/-- Items as long as the next character `goesOn`, behind those found so far, latest first. -/
def whileOnto {α : Type} (goesOn : Option Char → Bool) (item : Scan α) (found : List α) :
    Nat → Scan (List α)
  | 0 => return found.reverse
  | rounds + 1 => do
    if goesOn (← next?) then
      let value ← item
      whileOnto goesOn item (value :: found) rounds
    else
      return found.reverse

/-- Items up to `stop`, which is taken too. -/
def upTo {α : Type} (stop : Char) (item : Scan α) (rounds : Nat) : Scan (List α) := do
  let found ← whileOnto (· != some stop) item [] rounds
  expect stop
  return found

/-- Items as long as there is another `mark`, which stands before each of them. -/
def behind {α : Type} (mark : Char) (item : Scan α) (rounds : Nat) : Scan (List α) :=
  whileOnto (· == some mark) (do expect mark; item) [] rounds

/-- Items up to the end of the text. -/
def toEnd {α : Type} (item : Scan α) (rounds : Nat) : Scan (List α) :=
  whileOnto Option.isSome item [] rounds

end Scan

open Scan

def simple? (c : Char) : Option Simple :=
  if c = 'V' then some .void else (Primitive.ofLetter? c).map .primitive

/-- A letter for a type without parts, if there is one. -/
def simple : Scan (Option Simple) := do
  match (← next?).bind simple? with
  | some type =>
    expect type.letter
    return some type
  | none => return none

mutual

def reference : Nat → Scan Reference
  | 0 => fail
  | depth + 1 => do
    match ← next? with
    | some 'L' =>
      expect 'L'
      let head ← segment depth
      let nested ← behind '.' (segment depth) depth
      expect ';'
      return .object head nested
    | some 'T' =>
      expect 'T'
      let found ← name [';']
      expect ';'
      return .variable found
    | some '[' =>
      expect '['
      match ← simple with
      | some type => return .simpleArray type
      | none => return .array (← reference depth)
    | _ => fail

def segment : Nat → Scan Segment
  | 0 => fail
  | depth + 1 => do
    let found ← name ['<', '.', ';']
    if (← next?) = some '<' then
      expect '<'
      return .generic found (← upTo '>' (argument depth) (depth + 1))
    else
      return .plain found

def argument : Nat → Scan Argument
  | 0 => fail
  | depth + 1 => do
    match ← next? with
    | some '*' =>
      expect '*'
      return .any
    | some '+' =>
      expect '+'
      return .bounded .extending (← reference depth)
    | some '-' =>
      expect '-'
      return .bounded .super (← reference depth)
    | _ => return .exact (← reference depth)

end

def javaType (depth : Nat) : Scan JavaType := do
  match ← simple with
  | some type => return .simple type
  | none => return .reference (← reference depth)

/-- What follows the colon of a bound: nothing, unless a type starts there. -/
def bound (depth : Nat) : Scan (Option Reference) := do
  match ← next? with
  | some 'L' | some 'T' | some '[' => return some (← reference depth)
  | _ => return none

def typeParameter (depth : Nat) : Scan TypeParameter := do
  let found ← name [':', '>']
  if (← next?) = some ':' then
    return ⟨found, ← behind ':' (bound depth) depth⟩
  else fail

def scanBody (depth : Nat) : Scan Body := do
  if (← next?) = some '(' then
    expect '('
    let parameters ← upTo ')' (javaType depth) depth
    let returned ← javaType depth
    let thrown ← behind '^' (reference depth) depth
    if (← next?) = none then return .method parameters returned thrown else fail
  else
    return .types (← toEnd (reference depth) depth)

def whole (depth : Nat) : Scan Signature := do
  if (← next?) = some '<' then
    expect '<'
    let parameters ← upTo '>' (typeParameter depth) depth
    return ⟨some parameters, ← scanBody depth⟩
  else
    return ⟨none, ← scanBody depth⟩

/-- The signature that the text spells, or the offset in bytes at which it stops being one. -/
def read (source : String) : Except Nat Signature :=
  match whole (source.toList.length + 1) source.toList with
  | .ok (signature, _) => .ok signature
  | .error rest => .error (source.utf8ByteSize - (String.ofList rest).utf8ByteSize)

end JarRemap.Signature
