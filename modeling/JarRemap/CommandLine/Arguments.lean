import JarRemap.Text.Blank

/-!
# Arguments

Options are given by a long name behind two dashes or by a letter behind one; letters may share a
dash. A value follows its option, or is attached to it. After two dashes alone, nothing is an option
any more.

Help is given where it is asked for, unless something before that makes no sense.
-/

namespace JarRemap

/-- Why arguments were not accepted. -/
inductive Refusal
  | help
  | usage
deriving DecidableEq, Repr

/-- What has to follow an option. -/
inductive OptionValue
  | absent
  | text
  /-- Text that may not be empty. -/
  | path
deriving DecidableEq, Repr

structure OptionSpec where
  name : String
  letter : Option Char
  value : OptionValue
  /-- May be given more than once. -/
  repeats : Bool
deriving DecidableEq, Repr

/-- The arguments that were given. -/
structure Arguments where
  /-- The options, first to last, each with its value. -/
  options : List (String × String)
  /-- What belongs to no option. -/
  operands : List String
deriving DecidableEq, Repr

namespace Arguments

def empty : Arguments := ⟨[], []⟩

def has (arguments : Arguments) (name : String) : Bool := arguments.options.any (·.1 == name)

def values (arguments : Arguments) (name : String) : List String :=
  (arguments.options.filter (·.1 == name)).map Prod.snd

def value? (arguments : Arguments) (name : String) : Option String :=
  arguments.options.lookup name

/-- Notes an option, which must not have been there before unless it repeats. -/
def note (arguments : Arguments) (spec : OptionSpec) (value : String) :
    Except Refusal Arguments :=
  if !spec.repeats && arguments.has spec.name then .error .usage
  else if spec.value = .path && value.isEmpty then .error .usage
  else .ok { arguments with options := arguments.options ++ [(spec.name, value)] }

/-! ## Options -/

/-- An argument that can only be an option. A single dash is none. -/
def isOption (argument : String) : Bool :=
  match argument.toList with
  | '-' :: _ :: _ => true
  | _ => false

/-- The value of an option and the arguments that are left: the value that is attached to it, or else
the next argument. -/
def takeValue (attached : Option String) (rest : List String) :
    Except Refusal (String × List String) :=
  match attached, rest with
  | some value, _ => .ok (value, rest)
  | none, value :: rest => if isOption value then .error .usage else .ok (value, rest)
  | none, [] => .error .usage

/-- Notes an option with whatever value it has to have. -/
def take (arguments : Arguments) (spec : OptionSpec) (attached : Option String)
    (rest : List String) : Except Refusal (Arguments × List String) := do
  let (value, rest) ← takeValue attached rest
  return (← arguments.note spec value, rest)

/-- Reads an option by its long name. -/
def takeLong (specs : List OptionSpec) (arguments : Arguments) (name : String)
    (attached : Option String) (rest : List String) :
    Except Refusal (Arguments × List String) := do
  match specs.find? (·.name == name) with
  | some spec =>
    match spec.value, attached with
    | .absent, none => return (← arguments.note spec "", rest)
    | .absent, some _ => throw .usage
    | _, _ => arguments.take spec attached rest
  | none => throw (if name = "help" && attached.isNone then .help else .usage)

/-- Reads the letters behind one dash. What follows the letter of an option with a value is the
value, with an equals sign in front or without. -/
def takeLetters (specs : List OptionSpec) (rest : List String) :
    Arguments → List Char → Except Refusal (Arguments × List String)
  | arguments, [] => .ok (arguments, rest)
  | arguments, letter :: more =>
    match specs.find? (·.letter == some letter) with
    | some spec =>
      match spec.value, more with
      | .absent, _ => do takeLetters specs rest (← arguments.note spec "") more
      | _, [] => arguments.take spec none rest
      | _, '=' :: value => arguments.take spec (some (String.ofList value)) rest
      | _, value => arguments.take spec (some (String.ofList value)) rest
    | none => .error (if letter = 'h' then .help else .usage)

/-- Reads one argument that is an option, with its value. -/
def takeOption (specs : List OptionSpec) (arguments : Arguments) (argument : String)
    (rest : List String) : Except Refusal (Arguments × List String) :=
  match argument.toList with
  | '-' :: '-' :: name =>
    let (name, attached) := Text.cut '=' name
    arguments.takeLong specs (String.ofList name) (attached.map String.ofList) rest
  | _ :: letters => takeLetters specs rest arguments letters
  | [] => .error .usage

/-- What the options end with. -/
inductive Remainder
  | nothing
  | operand (argument : String) (rest : List String)
  /-- After two dashes alone. -/
  | operandsOnly (rest : List String)
deriving DecidableEq, Repr

/-- Reads options up to the first argument that is none. There are at most `count` arguments. -/
def readOptions (specs : List OptionSpec) :
    Nat → Arguments → List String → Except Refusal (Arguments × Remainder)
  | 0, arguments, _ => .ok (arguments, .nothing)
  | _ + 1, arguments, [] => .ok (arguments, .nothing)
  | count + 1, arguments, argument :: rest =>
    if argument = "--" then .ok (arguments, .operandsOnly rest)
    else if isOption argument then do
      let (arguments, rest) ← arguments.takeOption specs argument rest
      readOptions specs count arguments rest
    else .ok (arguments, .operand argument rest)

/-- Adds an operand, which is a path, if there may be one more. -/
def addOperand (limit : Nat) (arguments : Arguments) (operand : String) :
    Except Refusal Arguments :=
  if operand.isEmpty || arguments.operands.length ≥ limit then .error .usage
  else .ok { arguments with operands := arguments.operands ++ [operand] }

/-- Reads options and operands, of which there may be at most `limit`. -/
def readAll (specs : List OptionSpec) (limit : Nat) :
    Nat → Arguments → List String → Except Refusal Arguments
  | 0, arguments, _ => .ok arguments
  | count + 1, arguments, rest => do
    match ← readOptions specs rest.length arguments rest with
    | (arguments, .nothing) => return arguments
    | (arguments, .operand operand rest) =>
      readAll specs limit count (← arguments.addOperand limit operand) rest
    | (arguments, .operandsOnly rest) => rest.foldlM (addOperand limit) arguments

def read (specs : List OptionSpec) (limit : Nat) (given : List String) :
    Except Refusal Arguments :=
  readAll specs limit (given.length + 1) .empty given

end Arguments

end JarRemap
