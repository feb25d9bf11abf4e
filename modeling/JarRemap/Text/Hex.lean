/-!
# Numbers in hexadecimal
-/

namespace JarRemap.Text.Hex

def digit? (c : Char) : Option Nat :=
  if '0' ≤ c ∧ c ≤ '9' then some (c.toNat - '0'.toNat)
  else if 'a' ≤ c ∧ c ≤ 'f' then some (c.toNat - 'a'.toNat + 10)
  else if 'A' ≤ c ∧ c ≤ 'F' then some (c.toNat - 'A'.toNat + 10)
  else none

/-- The value of the digits behind `value`. -/
def digitsOnto (value : Nat) : List Char → Option Nat
  | [] => some value
  | c :: rest => (digit? c).bind fun d => digitsOnto (value * 16 + d) rest

/-- One or more digits of either case, after at most one plus sign, with a value that fits
sixteen bits. -/
def uint16? (chars : List Char) : Option UInt16 :=
  let digits := match chars with
    | '+' :: rest => rest
    | _ => chars
  if digits.isEmpty then none
  else (digitsOnto 0 digits).bind fun value =>
    if value < 65536 then some (UInt16.ofNat value) else none

/-- Lower-case digits without leading zeros. -/
def ofNat (value : Nat) : String := String.ofList (Nat.toDigits 16 value)

/-- Lower-case digits with as many zeros in front as make them fill the width. -/
def ofNatWide (width value : Nat) : String :=
  let digits := Nat.toDigits 16 value
  String.ofList (List.replicate (width - digits.length) '0' ++ digits)

/-- The value of one or more digits. -/
def toNat? (source : String) : Option Nat :=
  if source.isEmpty then none else digitsOnto 0 source.toList

end JarRemap.Text.Hex
