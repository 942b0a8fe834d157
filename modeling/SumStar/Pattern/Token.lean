import SumStar.Text.Control

/-! Tokens are single characters. Four of them are operators, control characters that are not
blank are refused, and all others stand for themselves, blanks and `+` included. -/

namespace SumStar

inductive Token where
  | char (c : Char)
  | opening
  | closing
  | bar
  | star
  deriving DecidableEq, Repr

namespace Token

def ofChar? (c : Char) : Option Token :=
  if c = '(' then some opening
  else if c = ')' then some closing
  else if c = '|' then some bar
  else if c = '*' then some star
  else if Text.isRefused c then none
  else some (char c)

/-- A character that stands for itself. -/
def isLiteral (c : Char) : Bool :=
  ofChar? c == some (char c)

end Token
end SumStar
