import SumStar.Group.Word
import SumStar.Text.Search

/-! A sum group is what one step of the reduction replaces: a chain of at least two word
characters, joined directly or by a single `+`, with a parenthesis taken in on either side where
one stands there. A single word character between parentheses and in front of `+` is a group as
well, because no chain can begin there and the sum would otherwise never be reduced. -/

namespace SumStar.SumGroup

/-- What a chain goes on with behind a word character. -/
def chainTail : Text → Text
  | '+' :: c :: rest => if isWord c then '+' :: c :: chainTail rest else []
  | c :: rest => if isWord c then c :: chainTail rest else []
  | [] => []

/-- The longest chain at the front, if it has a second word character. -/
def chain? : Text → Option Text
  | [] => none
  | c :: rest =>
    if isWord c then
      match chainTail rest with
      | [] => none
      | next :: tail => some (c :: next :: tail)
    else
      none

def closing : Text → Text
  | ')' :: _ => [')']
  | _ => []

/-- The chain at the front together with a parenthesis that closes directly behind it. -/
def closedChain? (text : Text) : Option Text :=
  (chain? text).map fun chain => chain ++ closing (text.drop chain.length)

/-- A parenthesised word character that a `+` follows. -/
def single? : Text → Option Text
  | '(' :: c :: ')' :: '+' :: _ => if isWord c then some ['(', c, ')', '+'] else none
  | _ => none

def recognise : Text → Option Text
  | '(' :: rest =>
    match closedChain? rest with
    | some group => some ('(' :: group)
    | none => single? ('(' :: rest)
  | text => closedChain? text

def findAll (text : Text) : List Text :=
  Text.findAll recognise text

def dropTrailingEmpty (pieces : List Text) : List Text :=
  (pieces.reverse.dropWhile List.isEmpty).reverse

/-- The summands of a group. A single one leaves an empty piece behind its `+`, which is none. -/
def alternatives (group : Text) : List Text :=
  dropTrailingEmpty ((Text.withoutParentheses group).splitOn '+')

end SumStar.SumGroup
