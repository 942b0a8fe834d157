import SumStar.Text.Basic

/-! Symbols are the start symbol and the numbered ones. A numbered symbol is written as a letter,
followed from the second round through the alphabet on by the number of the round: `A` to `Z`,
`A1` to `Z1`, `A2` and so on. The letter `S` is left to the start symbol. -/

namespace SumStar

inductive Symbol where
  | start
  | nth (position : Nat)
  deriving DecidableEq, Repr

namespace Symbol

def letters : Text :=
  "ABCDEFGHIJKLMNOPQRTUVWXYZ".toList

/-- The first round has no number. -/
def roundSuffix (round : Nat) : Text :=
  if round = 0 then [] else Nat.toDigits 10 round

def nameAt (position : Nat) : Text :=
  letters.getD (position % letters.length) 'A' :: roundSuffix (position / letters.length)

def name : Symbol → Text
  | start => ['S']
  | nth position => nameAt position

/-- Reads the number of a round. A leading zero is no way of writing one. -/
def round? : Text → Option Nat
  | [] => some 0
  | c :: rest =>
    if c ≠ '0' ∧ (c :: rest).all Char.isDigit then some (Nat.ofDigitChars 10 (c :: rest) 0) else none

/-- The position whose name the text is, if it is a name at all. -/
def position? : Text → Option Nat
  | [] => none
  | c :: suffix => do
    let slot ← letters.idxOf? c
    let round ← round? suffix
    return letters.length * round + slot

theorem nameAt_ne_nil (position : Nat) : nameAt position ≠ [] :=
  List.cons_ne_nil _ _

/-- Names are compared character by character, so `A1` stands before `A10` and both before `A2`. -/
def sortByName (symbols : List Symbol) : List Symbol :=
  symbols.mergeSort fun first second => !second.name.lex first.name fun c d => c.toNat.blt d.toNat

end Symbol
end SumStar
