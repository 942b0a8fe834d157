import SumStar.Reduction.Basic

/-! A grammar is what both phases of a derivation add up to. The start symbol has one production,
whose body is what is left of the expression. -/

namespace SumStar

structure Grammar where
  /-- The heads of the productions in order of first appearance, without the start symbol's own. -/
  nonTerminals : List Symbol
  terminals : Text
  expression : Text
  sumProductions : List Production
  starProductions : List Production
  deriving DecidableEq, Repr

namespace Grammar

def productions (grammar : Grammar) : List Production :=
  grammar.sumProductions ++ grammar.starProductions

def startProduction (grammar : Grammar) : Production :=
  ⟨.start, grammar.expression⟩

/-- The star phase works on what the sum phase left, so its expression is the last one. -/
def assemble (terminals : Text) (sums stars : Reduction) : Grammar where
  nonTerminals := ((sums.productions ++ stars.productions).map Production.head).eraseDups
  terminals := terminals
  expression := stars.expression
  sumProductions := sums.productions
  starProductions := stars.productions

end Grammar
end SumStar
