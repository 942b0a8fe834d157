import SumStar.Text.Blank

/-! A source is a line that lists the terminals, then the expression. The line ends at the first
line feed and may have one carriage return in front of it; blanks around the expression do not
count, further line feeds inside it do. -/

namespace SumStar

structure Source where
  terminals : Text
  expression : Text
  deriving DecidableEq, Repr

/-- The content has no line feed that could end the terminal line. -/
inductive SourceError where
  | missingSeparator
  deriving DecidableEq, Repr

namespace SourceError

def message : SourceError → Text
  | missingSeparator =>
    "missing terminal/expression separator: expected a newline after the terminal line".toList

end SourceError

namespace Source

def withoutCarriageReturn (line : Text) : Text :=
  if line.getLast? = some '\r' then line.dropLast else line

def ofText (content : Text) : Except SourceError Source :=
  match content.dropWhile (· ≠ '\n') with
  | [] => .error .missingSeparator
  | _ :: rest =>
    .ok ⟨withoutCarriageReturn (content.takeWhile (· ≠ '\n')), Text.trim rest⟩

end Source
end SumStar
