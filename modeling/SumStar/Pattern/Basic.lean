import SumStar.Text.Basic

/-! Patterns are trees over four levels: alternatives, the terms between them, the factors a term
is the concatenation of, and the atoms a factor takes once or repeats. -/

namespace SumStar

mutual

inductive Pattern where
  | term (term : Term)
  | alternation (first : Term) (others : Pattern)

inductive Term where
  | empty
  | factor (factor : Factor)
  | concatenation (first : Factor) (others : Term)

inductive Factor where
  | atom (atom : Atom)
  | zeroOrMore (atom : Atom)

inductive Atom where
  | char (c : Char)
  | parentheses (pattern : Pattern)

end

deriving instance DecidableEq for Pattern, Term, Factor, Atom

deriving instance Repr for Pattern, Term, Factor, Atom

/-- The term that concatenates the factors. Its last factor is never followed by the empty term. -/
def Term.ofFactors : List Factor → Term
  | [] => .empty
  | [last] => .factor last
  | first :: next :: rest => .concatenation first (Term.ofFactors (next :: rest))

/-- The alternatives of a pattern, the last one apart and the earlier ones from right to left. -/
def Pattern.ofTerms (last : Term) (earlier : List Term) : Pattern :=
  earlier.foldl (fun pattern term => .alternation term pattern) (.term last)

end SumStar
