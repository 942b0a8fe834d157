import SumStar.Pattern.Basic
import SumStar.Pattern.Token

/-! Patterns are written with a bar between alternatives, a star behind what is repeated and
parentheses around groups; the empty term is written as nothing. A tree is canonical when it has
no empty term behind a factor and holds literal characters only: of all trees that are written
alike, exactly one is. -/

namespace SumStar

mutual

def Pattern.print : Pattern → Text
  | .term term => term.print
  | .alternation first others => first.print ++ '|' :: others.print

def Term.print : Term → Text
  | .empty => []
  | .factor factor => factor.print
  | .concatenation first others => first.print ++ others.print

def Factor.print : Factor → Text
  | .atom atom => atom.print
  | .zeroOrMore atom => atom.print ++ ['*']

def Atom.print : Atom → Text
  | .char c => [c]
  | .parentheses pattern => '(' :: (pattern.print ++ [')'])

end

def Term.isEmpty : Term → Bool
  | .empty => true
  | _ => false

mutual

def Pattern.isCanonical : Pattern → Bool
  | .term term => term.isCanonical
  | .alternation first others => first.isCanonical && others.isCanonical

def Term.isCanonical : Term → Bool
  | .empty => true
  | .factor factor => factor.isCanonical
  | .concatenation first others => first.isCanonical && !others.isEmpty && others.isCanonical

def Factor.isCanonical : Factor → Bool
  | .atom atom => atom.isCanonical
  | .zeroOrMore atom => atom.isCanonical

def Atom.isCanonical : Atom → Bool
  | .char c => Token.isLiteral c
  | .parentheses pattern => pattern.isCanonical

end

end SumStar
