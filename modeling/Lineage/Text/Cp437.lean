import Lineage.Bytes

/-! Code page 437, in which archives name their entries unless they say
otherwise.  Its lower half is ASCII. -/

namespace Lineage
namespace Cp437

/-- The characters from 0x80 on. -/
def upperHalf : List Char :=
  ("ÇüéâäàåçêëèïîìÄÅÉæÆôöòûùÿÖÜ¢£¥₧ƒ" ++
    "áíóúñÑªº¿⌐¬½¼¡«»░▒▓│┤╡╢╖╕╣║╗╝╜╛┐" ++
    "└┴┬├─┼╞╟╚╔╩╦╠═╬╧╨╤╥╙╘╒╓╫╪┘┌█▄▌▐▀" ++
    "αßΓπΣσµτΦΘΩδ∞φε∩≡±≥≤⌠⌡÷≈°∙·√ⁿ²■\u00a0").toList

def char (b : UInt8) : Char :=
  if b < 0x80 then Char.ofNat b.toNat else (upperHalf[b.toNat - 0x80]?).getD '?'

def decode (b : Bytes) : List Char := b.map char

end Cp437
end Lineage
