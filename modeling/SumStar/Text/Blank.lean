import SumStar.Text.Basic

/-! Blank characters are those with the Unicode property White_Space. The zero width characters
and the separators U+001C to U+001F do not have it. -/

namespace SumStar.Text

def blankRanges : List (Nat × Nat) :=
  [(0x09, 0x0D), (0x20, 0x20), (0x85, 0x85), (0xA0, 0xA0), (0x1680, 0x1680), (0x2000, 0x200A),
    (0x2028, 0x2029), (0x202F, 0x202F), (0x205F, 0x205F), (0x3000, 0x3000)]

def isBlank (c : Char) : Bool :=
  blankRanges.any fun range => range.1 ≤ c.toNat && c.toNat ≤ range.2

theorem not_isBlank_of_toNat {c : Char} (above : 0x20 < c.toNat) (below : c.toNat < 0x7F) : isBlank c = false := by
  simp [isBlank, blankRanges]
  omega

def trimStart (text : Text) : Text :=
  text.dropWhile isBlank

def trimEnd (text : Text) : Text :=
  (trimStart text.reverse).reverse

def trim (text : Text) : Text :=
  trimEnd (trimStart text)

/-- The first run of characters that are not blank, empty when there is none. -/
def firstWord (text : Text) : Text :=
  (trimStart text).takeWhile fun c => !isBlank c

/-- The word is the first run of characters that are not blank, and empty only where there is none. -/
def FirstWord (text word : Text) : Prop :=
  ∃ left right, text = left ++ word ++ right ∧ (∀ c ∈ left, isBlank c = true) ∧ (∀ c ∈ word, isBlank c = false) ∧
    (∀ c, right.head? = some c → isBlank c = true) ∧ (word = [] → right = [])

end SumStar.Text
