import JarRemap.Structure.Inject

/-!
# Generated parameter names

A method whose own name is generated, `func_70071_h_` for instance, gets names for its parameters
that are made of its number and of the slot in which each parameter is passed: `p_70071_1_`. Slots
start behind the object the method is called on, and longs and doubles take two. They are counted in
two bytes, and the program stops when these do not suffice.
-/

namespace JarRemap

namespace ParameterNames

def methodMark : String := "func_"

/-- The number in a generated method name: decimal digits between the mark and an underscore, with
something behind. -/
def methodNumber? (name : List Char) : Option (List Char) := do
  match Text.cut '_' (← Text.after? methodMark.toList name) with
  | (number, some (_ :: _)) =>
    if number.isEmpty || !number.all Char.isDigit then none else some number
  | _ => none

def name (number : List Char) (slot : UInt16) : String :=
  "p_" ++ String.ofList number ++ "_" ++ toString slot.toNat ++ "_"

/-- The slot behind a parameter. The addition is checked. -/
def nextSlot (slot : UInt16) (width : Nat) : Except Failure UInt16 :=
  if slot.toNat + width < 65536 then .ok (slot + UInt16.ofNat width) else .error .overflow

/-- Names for parameters of these widths, from a slot on. The slot behind the last one is counted
too. -/
def names (number : List Char) : UInt16 → List Nat → Except Failure (List String)
  | _, [] => .ok []
  | slot, width :: rest => do
    let next ← nextSlot slot width
    let others ← names number next rest
    return name number slot :: others

/-- The slot of the first parameter. -/
def firstSlot (access : AccessFlags) : UInt16 := if access.contains .accStatic then 0 else 1

/-- The names that a method is to get, unless its name is not generated, its parameters have names
or it has none. -/
def wanted (file : ClassFile) (method : Member) : Except Failure (Option (List String)) := do
  match methodNumber? (← Failure.ofFault (file.pool.utf8 method.name)).toList with
  | none => return none
  | some number =>
    if (Attribute.body? file.pool Attribute.methodParametersName method.attributes).isSome then
      return none
    else
      let descriptor ← Failure.ofFault (file.pool.utf8 method.descriptor)
      let widths ← Failure.ofFault (Descriptor.parameterSlots descriptor)
      if widths.isEmpty then return none
      else return some (← names number (firstSlot method.access) widths)

/-- Names the parameters of the method at `position`, and says whether that was needed. -/
def generateAt (position : Nat) : Injection Bool := do
  let file ← get
  match file.methods[position]? with
  | none => return false
  | some method =>
    match ← liftM (wanted file method) with
    | none => return false
    | some names => Injection.putParameters (.member .method position) names

def generateFrom (position : Nat) : Nat → Injection Bool
  | 0 => return false
  | count + 1 => do
    let changed ← generateAt position
    let others ← generateFrom (position + 1) count
    return changed || others

/-- Names the parameters of every method that needs it. -/
def generate : Injection Bool := do generateFrom 0 (← get).methods.length

/-- Target version whose tools know nothing of generated parameter names. -/
def versionWithout : String := "1.7.2"

/-- Whether a target version wants generated names. -/
def areWanted (targetVersion : Option String) : Bool := targetVersion != some versionWithout

end ParameterNames

namespace Injection

/-- Puts a record back if there is one, then generates parameter names if they are wanted, and says
whether anything changed. -/
def inject (structure_ : Option ClassStructure) (generates : Bool) : Injection Bool := do
  let restored ← match structure_ with
    | some structure_ => putStructure structure_
    | none => pure false
  let named ← if generates then ParameterNames.generate else pure false
  return restored || named

end Injection

end JarRemap
