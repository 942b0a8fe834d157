import SumStar.Grammar.Basic
import SumStar.Reduction.Sums
import SumStar.Reduction.Stars

/-! A session reduces one expression in as many steps as its user likes. It threads the expression
and the supply from one reduction to the next and collects the productions of each phase, so
symbols of different steps never coincide. -/

namespace SumStar

structure Session where
  expression : Text
  supply : Supply := {}
  sumProductions : List Production := []
  starProductions : List Production := []
  deriving DecidableEq, Repr

namespace Session

inductive Step where
  | append (text : Text)
  | prepend (text : Text)
  | advance (count : Nat)
  | sums (memory : GroupMemory)
  | stars (naming : StarNaming)
  deriving DecidableEq, Repr

def append (session : Session) (text : Text) : Session :=
  { session with expression := session.expression ++ text }

def prepend (session : Session) (text : Text) : Session :=
  { session with expression := text ++ session.expression }

def advance (session : Session) (count : Nat) : Session :=
  { session with supply := session.supply.advanceBy count }

def sums (session : Session) (memory : GroupMemory) : Except Stalled Reduction :=
  reduceSums memory session.expression session.supply

def stars (session : Session) (naming : StarNaming) : Reduction :=
  reduceStars naming session.expression session.supply

def acceptSums (session : Session) (reduction : Reduction) : Session :=
  { session with
    expression := reduction.expression
    supply := reduction.supply
    sumProductions := session.sumProductions ++ reduction.productions }

def acceptStars (session : Session) (reduction : Reduction) : Session :=
  { session with
    expression := reduction.expression
    supply := reduction.supply
    starProductions := session.starProductions ++ reduction.productions }

/-- A sum phase that stalls leaves the session as it was, the supply included. -/
def after (session : Session) : Step → Session
  | .append text => session.append text
  | .prepend text => session.prepend text
  | .advance count => session.advance count
  | .sums memory =>
    match session.sums memory with
    | .ok reduction => session.acceptSums reduction
    | .error _ => session
  | .stars naming => session.acceptStars (session.stars naming)

def run (session : Session) (steps : List Step) : Session :=
  steps.foldl after session

/-- The grammar of the expression and the productions collected so far. -/
def assemble (session : Session) (terminals : Text) : Grammar :=
  Grammar.assemble terminals
    ⟨session.expression, session.supply, session.sumProductions⟩
    ⟨session.expression, session.supply, session.starProductions⟩

end Session
end SumStar
