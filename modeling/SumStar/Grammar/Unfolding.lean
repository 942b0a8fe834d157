import SumStar.Grammar.Basic
import SumStar.Text.Replace

/-! Unfolding goes back from a grammar to an expression. The declared symbols are taken from the last
to the first, and each is written out wherever it occurs: as the sum of its bodies, or as the round
of its repetition with a star. -/

namespace SumStar.Grammar

def bodiesOf (symbol : Symbol) (productions : List Production) : List Text :=
  (productions.filter fun production => production.head = symbol).map Production.body

/-- The text a symbol stands for in the notation of expressions. A symbol without productions of
either kind stands for itself. -/
def origin (sums stars : List Production) (symbol : Symbol) : Text :=
  match bodiesOf symbol sums with
  | [] =>
    match bodiesOf symbol stars with
    | [round, []] =>
      if symbol.name <:+ round then round.take (round.length - symbol.name.length) ++ ['*'] else symbol.name
    | _ => symbol.name
  | first :: others => ['+'].intercalate (first :: others)

def unfold (grammar : Grammar) : Text :=
  grammar.nonTerminals.foldr
    (fun symbol => Text.replaceAll symbol.name (origin grammar.sumProductions grammar.starProductions symbol))
    grammar.expression

end SumStar.Grammar
