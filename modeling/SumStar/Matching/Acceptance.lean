import SumStar.Pattern.Parser
import SumStar.Matching.Reach

/-! Acceptance of whole candidates. The notation of sources writes `+` between alternatives and is
flattened character by character into the one of patterns. -/

namespace SumStar

/-- Some way through the pattern takes the whole text. -/
def Pattern.isFullMatch (pattern : Pattern) (text : Text) : Bool :=
  match pattern.reach text [{}] with
  | .ok spans => spans.any fun span => span.stop == text.length
  | .error _ => false

/-- The lengths of the prefixes of the text that the pattern takes as a whole. -/
def Pattern.fullMatchLengths (pattern : Pattern) (text : Text) : List Nat :=
  (List.range (text.length + 1)).filter fun length => pattern.isFullMatch (text.take length)

def flatten (expression : Text) : Text :=
  expression.map fun c => if c = '+' then '|' else c

theorem flatten_append (first second : Text) : flatten (first ++ second) = flatten first ++ flatten second :=
  List.map_append

def accepts (expression candidate : Text) : Except SyntaxError Bool := do
  let pattern ← Pattern.parse (flatten expression)
  return pattern.isFullMatch candidate

end SumStar
