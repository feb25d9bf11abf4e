import JarRemap.Bytes

/-!
# Code page 437

The characters of names that are not marked as UTF-8. Every byte is one character, and the lower half
of the code page is ASCII.
-/

namespace JarRemap.Text.CodePage

/-- The characters of the bytes from 0x80 on. -/
def upperHalf : Array Char :=
  ("ÇüéâäàåçêëèïîìÄÅÉæÆôöòûùÿÖÜ¢£¥₧ƒ" ++ "áíóúñÑªº¿⌐¬½¼¡«»░▒▓│┤╡╢╖╕╣║╗╝╜╛┐" ++
    "└┴┬├─┼╞╟╚╔╩╦╠═╬╧╨╤╥╙╘╒╓╫╪┘┌█▄▌▐▀" ++ "αßΓπΣσµτΦΘΩδ∞φε∩≡±≥≤⌠⌡÷≈°∙·√ⁿ²■\u00a0").toList.toArray

def character (byte : UInt8) : Char :=
  if byte < 0x80 then Char.ofNat byte.toNat else upperHalf.getD (byte.toNat - 0x80) '\x00'

def decode (bytes : Bytes) : String := String.ofList (bytes.map character)

end JarRemap.Text.CodePage
