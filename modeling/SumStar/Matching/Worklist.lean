import SumStar.Matching.Span

/-! Collecting the spans that a step reaches when it is repeated. A step takes spans to the spans
they lead to. A worklist goes on with the spans that are new; a span that was seen before leads
nowhere else, so a step that does not move ends the work. -/

namespace SumStar

abbrev SpanStep := List Span → Except Overrun (List Span)

/-- Both lists without the repetitions between them. -/
def Span.merge (first second : List Span) : List Span :=
  first ++ second.filter fun span => !first.contains span

structure Worklist where
  seen : List Span
  frontier : List Span
  deriving DecidableEq, Repr

namespace Worklist

def initial (spans : List Span) : Worklist :=
  ⟨spans, spans⟩

def round (step : SpanStep) (worklist : Worklist) : Except Overrun Worklist := do
  let reached ← step worklist.frontier
  let fresh := reached.filter fun span => !worklist.seen.contains span
  return ⟨worklist.seen ++ fresh, fresh⟩

/-- Rounds until nothing is new, as many as allowed. -/
def run (step : SpanStep) : Nat → Worklist → Except Overrun Worklist
  | 0, worklist => .ok worklist
  | rounds + 1, worklist =>
    if worklist.frontier.isEmpty then
      .ok worklist
    else do
      let next ← worklist.round step
      run step rounds next

end Worklist
end SumStar
