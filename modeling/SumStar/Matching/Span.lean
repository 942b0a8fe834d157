import SumStar.Text.Basic

/-! A span is a range of characters of some text, given by the places of its two ends. -/

namespace SumStar

structure Span where
  start : Nat := 0
  stop : Nat := 0
  deriving DecidableEq, Repr

/-- The end of a span would lie behind the end of its text. -/
structure Overrun where
  stop : Nat
  deriving DecidableEq, Repr

namespace Span

def advance (span : Span) (count : Nat) : Span :=
  { span with stop := span.stop + count }

def advanceWithin (text : Text) (span : Span) (count : Nat) : Except Overrun Span :=
  let next := span.advance count
  if next.stop ≤ text.length then .ok next else .error ⟨next.stop⟩

end Span
end SumStar
