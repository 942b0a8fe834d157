import SumStar.Pattern.Token
import SumStar.Pattern.SyntaxError

/-! The first offence against the syntax of patterns, found without building a tree. Reading from
left to right it is enough to know how many groups are open and whether a star may follow. -/

namespace SumStar

/-- What stands directly in front: nothing a star applies to, the end of an atom, or a star. -/
inductive Preceding where
  | nothing
  | atom
  | star
  deriving DecidableEq, Repr

def firstOffence (depth : Nat) (preceding : Preceding) (offset : Nat) : Text → Option SyntaxError
  | [] => if depth = 0 then none else some .unexpectedEnd
  | c :: rest =>
    let next (depth : Nat) (preceding : Preceding) :=
      firstOffence depth preceding (offset + c.utf8Size) rest
    match Token.ofChar? c with
    | none => some (.invalidToken (.unsupported (Text.escapeCodePoint c)))
    | some (.char _) => next depth .atom
    | some .bar => next depth .nothing
    | some .opening => next (depth + 1) .nothing
    | some .closing => if depth = 0 then some (.trailingInput offset .closing) else next (depth - 1) .atom
    | some .star =>
      match preceding with
      | .nothing => some .invalidAtomStart
      | .atom => next depth .star
      | .star => some (if depth = 0 then .trailingInput offset .star else .unexpected "')'".toList .star)

end SumStar
