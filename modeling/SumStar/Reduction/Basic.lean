import SumStar.Symbol.Supply
import SumStar.Production

/-! A reduction is what a phase leaves behind: the reduced expression, the supply of symbols
after the phase and the productions it emitted, in the order in which their groups were met. -/

namespace SumStar

structure Reduction where
  expression : Text
  supply : Supply
  productions : List Production
  deriving DecidableEq, Repr

/-- How long a sum group keeps the symbol it was given. -/
inductive GroupMemory where
  | scan
  | run
  deriving DecidableEq, Repr

/-- Whether the star groups of an expression share one symbol or have one each. -/
inductive StarNaming where
  | shared
  | separate
  deriving DecidableEq, Repr

/-- A `+` is left in the expression and no scan changes it any more. -/
structure Stalled where
  residual : Text
  deriving DecidableEq, Repr

namespace Stalled

def message (stalled : Stalled) : Text :=
  "no OR group can be reduced in '".toList ++ stalled.residual ++ "'".toList

end Stalled
end SumStar
