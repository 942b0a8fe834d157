import SumStar.Symbol.Basic

/-! Productions exchange their head for their body. A body is text in which symbols stand by
their names; it may be empty. -/

namespace SumStar

structure Production where
  head : Symbol
  body : Text
  deriving DecidableEq, Repr

namespace Production

def arrow : Text :=
  " -> ".toList

def render (production : Production) : Text :=
  production.head.name ++ arrow ++ production.body

end Production
end SumStar
