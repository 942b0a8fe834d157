import SumStar.Reduction.Basic
import SumStar.Group.Sum
import SumStar.Text.Replace

/-! The sum phase exchanges sum groups for fresh symbols, scan after scan, until no `+` is left. A
scan finds its groups in the expression as it was at the start, but every exchange applies to all
occurrences of the group in the expression as it has become, so a later group may have vanished
or may turn up inside another one. -/

namespace SumStar

/-- What the scans hand on. The groups that are remembered beyond a scan stand in `known`. -/
structure SumProgress where
  expression : Text
  supply : Supply
  productions : List Production
  known : List (Text × Symbol)
  deriving DecidableEq, Repr

namespace SumProgress

def initial (expression : Text) (supply : Supply) : SumProgress :=
  ⟨expression, supply, [], []⟩

def exchange (progress : SumProgress) (group : Text) (symbol : Symbol) : SumProgress :=
  { progress with expression := Text.replaceAll group symbol.name progress.expression }

/-- Hands out a symbol for the group and emits a production for each of its alternatives. -/
def introduce (memory : GroupMemory) (progress : SumProgress) (group : Text) : SumProgress :=
  let (symbol, supply) := progress.supply.allocate
  { progress.exchange group symbol with
    supply := supply
    productions :=
      progress.productions ++ (SumGroup.alternatives group).map fun body => ⟨symbol, body⟩
    known :=
      match memory with
      | .scan => progress.known
      | .run => (group, symbol) :: progress.known }

/-- The name of a symbol that was handed out looks like a group but stays. -/
def visit (memory : GroupMemory) (progress : SumProgress) (group : Text) : SumProgress :=
  if progress.supply.isAllocated group then
    progress
  else
    match progress.known.lookup group with
    | some symbol => progress.exchange group symbol
    | none => progress.introduce memory group

/-- A group that occurs several times in the expression is visited once. -/
def scan (memory : GroupMemory) (progress : SumProgress) : SumProgress :=
  (SumGroup.findAll progress.expression).eraseDups.foldl (visit memory) progress

/-- Scans until no `+` is left, a scan changes nothing, or the rounds are used up. -/
def settle (memory : GroupMemory) : Nat → SumProgress → SumProgress
  | 0, progress => progress
  | rounds + 1, progress =>
    if '+' ∈ progress.expression then
      let next := progress.scan memory
      if next.expression = progress.expression then next else settle memory rounds next
    else
      progress

/-- More rounds than scans can change the expression. A scan that changes it has fewer characters
outside words afterwards, or as many of them and fewer runs of digits, or as many of both and
fewer runs that are no name handed out; neither kind of run outnumbers the characters outside
words by more than one. -/
def roundLimit (expression : Text) : Nat :=
  let base := (expression.filter fun c => !isWord c).length + 2
  base * base * base

end SumProgress

def reduceSums (memory : GroupMemory) (expression : Text) (supply : Supply) :
    Except Stalled Reduction :=
  let settled :=
    (SumProgress.initial expression supply).settle memory (SumProgress.roundLimit expression)
  if '+' ∈ settled.expression then
    .error ⟨settled.expression⟩
  else
    .ok ⟨settled.expression, settled.supply, settled.productions⟩

end SumStar
