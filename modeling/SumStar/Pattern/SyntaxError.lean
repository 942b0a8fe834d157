import SumStar.Pattern.Token

/-! What can be wrong with the text of a pattern. A refused character is named by its escape, and only
what stands behind a whole expression is reported with its place, in UTF-8 bytes from the start. -/

namespace SumStar

inductive TokenError where
  | unsupported (escaped : Text)
  deriving DecidableEq, Repr

inductive SyntaxError where
  | invalidToken (cause : TokenError)
  | unexpected (expected : Text) (token : Token)
  | unexpectedEnd
  | invalidAtomStart
  | trailingInput (offset : Nat) (token : Token)
  deriving DecidableEq, Repr

def Token.name : Token → Text
  | .char c => "Char('".toList ++ [c] ++ "')".toList
  | .opening => "LeftParen".toList
  | .closing => "RightParen".toList
  | .bar => "Pipe".toList
  | .star => "Star".toList

/-- The text between quotation marks; those inside of it and backslashes get a backslash. -/
def Text.quoted (text : Text) : Text :=
  ['"'] ++ text.flatMap (fun c => if c = '"' ∨ c = '\\' then ['\\', c] else [c]) ++ ['"']

def TokenError.name : TokenError → Text
  | .unsupported escaped => "Unsupported(".toList ++ Text.quoted escaped ++ [')']

namespace SyntaxError

def message : SyntaxError → Text
  | invalidToken cause => "Invalid token ".toList ++ cause.name
  | unexpected expected token => "Expected ".toList ++ expected ++ " got ".toList ++ token.name
  | unexpectedEnd => "Unexpected EOF".toList
  | invalidAtomStart => "Invalid atom start".toList
  | trailingInput offset token =>
    "Unexpected ".toList ++ token.name ++ " at byte ".toList ++ Nat.toDigits 10 offset

end SyntaxError
end SumStar
