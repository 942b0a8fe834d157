import SumStar.Group.Sum
import SumStar.Group.Star

/-! Shapes describe pieces of text by classes, sequence, ordered choice and repetition. A shape
answers every rest it can leave behind, the preferred one first: a choice tries its first side
before the second, a repetition another round before it stops. This is how the groups are
described from outside; the recognisers find the preferred rest without going back. -/

namespace SumStar

inductive Shape where
  | empty
  | one (accepts : Char → Bool)
  | sequence (first second : Shape)
  | choice (first second : Shape)
  | repeated (round : Shape)

namespace Shape

def literal (c : Char) : Shape :=
  one (· == c)

def optional (shape : Shape) : Shape :=
  choice shape empty

def atLeastOnce (round : Shape) : Shape :=
  sequence round (repeated round)

/-- A round that takes nothing is not repeated, so the length of the text bounds the rounds. -/
def restsOfRounds (round : Text → List Text) : Nat → Text → List Text
  | 0, text => [text]
  | rounds + 1, text =>
    ((round text).filter fun rest => rest.length < text.length).flatMap (restsOfRounds round rounds)
      ++ [text]

def rests : Shape → Text → List Text
  | empty, text => [text]
  | one _, [] => []
  | one accepts, c :: rest => if accepts c then [rest] else []
  | sequence first second, text => (first.rests text).flatMap second.rests
  | choice first second, text => first.rests text ++ second.rests text
  | repeated round, text => restsOfRounds round.rests text.length text

/-- The piece that the preferred way takes from the front. -/
def take? (shape : Shape) (text : Text) : Option Text :=
  (shape.rests text).head?.map fun rest => text.take (text.length - rest.length)

def word : Shape :=
  one isWord

/-- A chain with optional parentheses, or else a parenthesised run in front of `+`. -/
def sum : Shape :=
  choice
    (sequence (optional (literal '('))
      (sequence word
        (sequence (atLeastOnce (sequence (optional (literal '+')) word))
          (optional (literal ')')))))
    (sequence (literal '(')
      (sequence (atLeastOnce word) (sequence (literal ')') (literal '+'))))

def star : Shape :=
  sequence (optional (literal '('))
    (sequence (atLeastOnce word) (sequence (optional (literal ')')) (literal '*')))

end Shape
end SumStar
