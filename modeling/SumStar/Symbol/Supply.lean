import SumStar.Symbol.Basic

/-! A supply hands out the numbered symbols in order, each of them once. -/

namespace SumStar

/-- The symbols below the position have been handed out or passed over. -/
structure Supply where
  position : Nat := 0
  deriving DecidableEq, Repr

namespace Supply

/-- The symbol that is handed out next. -/
def peek (supply : Supply) : Symbol :=
  .nth supply.position

def advanceBy (supply : Supply) (count : Nat) : Supply :=
  ⟨supply.position + count⟩

def advance (supply : Supply) : Supply :=
  supply.advanceBy 1

def allocate (supply : Supply) : Symbol × Supply :=
  (supply.peek, supply.advance)

/-- Whether the text is the name of a symbol below the position. -/
def isAllocated (supply : Supply) (text : Text) : Bool :=
  (Symbol.position? text).any (· < supply.position)

end Supply
end SumStar
