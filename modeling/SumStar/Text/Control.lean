import SumStar.Text.Blank

/-! Control characters are those of the Unicode general category Cc. The blank ones among them
(tabulators, line ends and U+0085) are ordinary text; the others are refused in patterns. -/

namespace SumStar.Text

def isControl (c : Char) : Bool :=
  c.toNat ≤ 0x1F || (0x7F ≤ c.toNat && c.toNat ≤ 0x9F)

def isRefused (c : Char) : Bool :=
  isControl c && !isBlank c

/-- The code point between braces, in lower case hexadecimal digits without leading zeros. -/
def escapeCodePoint (c : Char) : Text :=
  "\\u\x7b".toList ++ Nat.toDigits 16 c.toNat ++ "\x7d".toList

end SumStar.Text
