import SumStar.Text.Basic

/-! Groups are made of word characters: ASCII letters, digits and the underscore. Letters of other
alphabets belong to no group and pass through every reduction. -/

namespace SumStar

def isWord (c : Char) : Bool :=
  c.isAlphanum || c == '_'

theorem isWord_plus : isWord '+' = false := by decide

theorem isWord_star : isWord '*' = false := by decide

theorem isWord_opening : isWord '(' = false := by decide

theorem isWord_closing : isWord ')' = false := by decide

theorem ne_of_isWord {c gap : Char} (word : isWord c = true) (outside : isWord gap = false) : c ≠ gap := by
  intro same
  rw [same, outside] at word
  cases word

theorem not_isWord_of_isParenthesis {c : Char} (parenthesis : Text.isParenthesis c = true) :
    isWord c = false := by
  simp only [Text.isParenthesis, Bool.or_eq_true, beq_iff_eq] at parenthesis
  rcases parenthesis with rfl | rfl <;> decide

end SumStar
