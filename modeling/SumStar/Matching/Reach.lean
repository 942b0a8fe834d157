import SumStar.Pattern.Basic
import SumStar.Matching.Worklist

/-! The spans a pattern reaches: every way in which it can take a piece of the text behind the end
of one of the given spans. All spans are followed at once, so ways that have met are not followed
twice. Repetition runs a worklist; each of its rounds but the last finds an end that no span had
before, and no end lies behind that of the text. -/

namespace SumStar

/-- The spans that are followed by the character, moved over it. -/
def Span.takeChar (text : Text) (c : Char) : SpanStep
  | [] => .ok []
  | span :: rest =>
    if text[span.stop]? = some c then do
      let next ← span.advanceWithin text 1
      let others ← takeChar text c rest
      return next :: others
    else
      takeChar text c rest

mutual

def Pattern.reach (text : Text) : Pattern → SpanStep
  | .term term, spans => term.reach text spans
  | .alternation first others, spans => do
    let here ← first.reach text spans
    let there ← others.reach text spans
    return Span.merge here there

def Term.reach (text : Text) : Term → SpanStep
  | .empty, spans => .ok spans
  | .factor factor, spans => factor.reach text spans
  | .concatenation first others, spans => do
    let middle ← first.reach text spans
    others.reach text middle

def Factor.reach (text : Text) : Factor → SpanStep
  | .atom atom, spans => atom.reach text spans
  | .zeroOrMore atom, spans => do
    let worklist ← Worklist.run (fun frontier => atom.reach text frontier) (text.length + 1)
      (Worklist.initial spans)
    return worklist.seen

def Atom.reach (text : Text) : Atom → SpanStep
  | .char c, spans => Span.takeChar text c spans
  | .parentheses pattern, spans => pattern.reach text spans

end

end SumStar
