import SumStar.Source
import SumStar.Grammar.Basic
import SumStar.Reduction.Sums
import SumStar.Reduction.Stars

/-! The derivation of a grammar from a source: sums first, then stars, with symbols from one
supply. -/

namespace SumStar

structure DerivationOptions where
  memory : GroupMemory := .scan
  naming : StarNaming := .shared
  deriving DecidableEq, Repr

inductive DerivationError where
  | source (cause : SourceError)
  | stalled (cause : Stalled)
  deriving DecidableEq, Repr

namespace DerivationError

def message : DerivationError → Text
  | source cause => cause.message
  | stalled cause => cause.message

end DerivationError

namespace Grammar

def ofSource (options : DerivationOptions) (source : Source) : Except Stalled Grammar := do
  let sums ← reduceSums options.memory source.expression {}
  return assemble source.terminals sums (reduceStars options.naming sums.expression sums.supply)

def derive (options : DerivationOptions) (content : Text) : Except DerivationError Grammar := do
  let source ← (Source.ofText content).mapError .source
  (ofSource options source).mapError .stalled

end Grammar
end SumStar
