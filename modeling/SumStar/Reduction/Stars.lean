import SumStar.Reduction.Basic
import SumStar.Group.Star
import SumStar.Text.Replace

/-! The star phase exchanges star groups for symbols that repeat themselves. It is a single scan:
its groups are found in the expression as it was, and each is exchanged wherever it still
occurs. -/

namespace SumStar

namespace Reduction

/-- A repetition is one more round and the repetition again, or nothing. -/
def repetition (symbol : Symbol) (body : Text) : List Production :=
  [⟨symbol, body ++ symbol.name⟩, ⟨symbol, []⟩]

def visitStar (naming : StarNaming) (reduction : Reduction) (group : Text) : Reduction :=
  let symbol := reduction.supply.peek
  { expression := Text.replaceAll group symbol.name reduction.expression
    supply :=
      match naming with
      | .shared => reduction.supply
      | .separate => reduction.supply.advance
    productions := reduction.productions ++ repetition symbol (StarGroup.body group) }

theorem expression_visitStar (naming : StarNaming) (reduction : Reduction) (group : Text) :
    (reduction.visitStar naming group).expression =
      Text.replaceAll group reduction.supply.peek.name reduction.expression := rfl

theorem productions_visitStar (naming : StarNaming) (reduction : Reduction) (group : Text) :
    (reduction.visitStar naming group).productions =
      reduction.productions ++ repetition reduction.supply.peek (StarGroup.body group) := rfl

theorem position_visitStar (reduction : Reduction) (group : Text) :
    (reduction.visitStar .separate group).supply.position = reduction.supply.position + 1 := rfl

end Reduction

/-- The shared symbol is passed over at the end even if no group took it. -/
def reduceStars (naming : StarNaming) (expression : Text) (supply : Supply) : Reduction :=
  let scanned :=
    (StarGroup.findAll expression).eraseDups.foldl (Reduction.visitStar naming)
      ⟨expression, supply, []⟩
  match naming with
  | .shared => { scanned with supply := scanned.supply.advance }
  | .separate => scanned

end SumStar
