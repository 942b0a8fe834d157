import SumStar.Group.Word
import SumStar.Text.Search

/-! A star group is a run of word characters in front of `*`, with a parenthesis taken in on either
side of the run where one stands there. The two parentheses need not belong together. -/

namespace SumStar.StarGroup

/-- What a group goes on with behind its first word character. -/
def tail? : Text → Option Text
  | '*' :: _ => some ['*']
  | ')' :: '*' :: _ => some [')', '*']
  | c :: rest => if isWord c then (tail? rest).map (c :: ·) else none
  | [] => none

def run? : Text → Option Text
  | c :: rest => if isWord c then (tail? rest).map (c :: ·) else none
  | [] => none

def recognise : Text → Option Text
  | '(' :: rest => (run? rest).map ('(' :: ·)
  | text => run? text

def findAll (text : Text) : List Text :=
  Text.findAll recognise text

/-- The run that is repeated. -/
def body (group : Text) : Text :=
  (Text.withoutParentheses group).takeWhile (· ≠ '*')

end SumStar.StarGroup
