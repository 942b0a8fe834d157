import SumStar.Pattern.Basic
import SumStar.Pattern.Lexer

/-! Patterns are parsed by recursive descent: an expression is a term and perhaps a bar and a further
expression, a term is empty or a factor and perhaps a further term, a factor is an atom and perhaps a
star. One token of lookahead decides which. Where a refused character is looked at and does not
matter yet, it is left to whoever takes the next token. -/

namespace SumStar

/-- Whether an atom can begin with the token. -/
def Token.opensAtom : Token → Bool
  | .char _ | .opening => true
  | .bar | .closing | .star => false

/-- Whether a term is over in front of the token. -/
def Token.endsTerm : Token → Bool
  | .bar | .closing => true
  | .char _ | .opening | .star => false

/-- Whether a token was seen that has the property. -/
def Lexer.sees (item : Option (Except TokenError Lexeme)) (property : Token → Bool) : Bool :=
  item.any fun result => result.toOption.any fun lexeme => property lexeme.token

/-- What was parsed, and the lexer behind it with fewer tokens left than the limit. -/
structure Parsed (α : Type) (limit : Nat) where
  value : α
  lexer : Lexer
  closer : lexer.unread < limit

namespace Lexer

/-- Takes the token that closes a group. -/
def takeClosing (lexer : Lexer) : Except SyntaxError { behind : Lexer // behind.unread < lexer.unread } :=
  match taken : lexer.next with
  | (none, _) => .error .unexpectedEnd
  | (some (.error cause), _) => .error (.invalidToken cause)
  | (some (.ok lexeme), behind) =>
    if lexeme.token = .closing then .ok ⟨behind, unread_of_next taken⟩
    else .error (.unexpected "')'".toList lexeme.token)

mutual

def parseAtom (lexer : Lexer) : Except SyntaxError (Parsed Atom lexer.unread) :=
  match seen : lexer.peek with
  | (none, _) => .error .unexpectedEnd
  | (some (.error cause), _) => .error (.invalidToken cause)
  | (some (.ok lexeme), peeked) =>
    have closer := unread_of_peek_next seen
    match lexeme.token with
    | .char c => .ok ⟨.char c, peeked.next.2, closer⟩
    | .opening => do
      let inner ← peeked.next.2.parseExpression
      let ⟨behind, shorter⟩ ← inner.lexer.takeClosing
      have := inner.closer
      .ok ⟨.parentheses inner.value, behind, by omega⟩
    | .bar | .closing | .star => .error .invalidAtomStart
termination_by 4 * lexer.unread

def parseFactor (lexer : Lexer) : Except SyntaxError (Parsed Factor lexer.unread) := do
  let atom ← lexer.parseAtom
  match seen : atom.lexer.peek with
  | (some (.error cause), _) => .error (.invalidToken cause)
  | (some (.ok ⟨_, .star⟩), peeked) =>
    have closer := unread_of_peek_next seen
    .ok ⟨.zeroOrMore atom.value, peeked.next.2, Nat.lt_trans closer atom.closer⟩
  | (_, peeked) =>
    have same := unread_of_peek seen
    .ok ⟨.atom atom.value, peeked, same ▸ atom.closer⟩
termination_by 4 * lexer.unread + 1

def parseTerm (lexer : Lexer) : Except SyntaxError (Parsed Term (lexer.unread + 1)) :=
  match seen : lexer.peek with
  | (item, peeked) =>
    have same := unread_of_peek seen
    if item.isNone || sees item Token.endsTerm then
      .ok ⟨.empty, peeked, by omega⟩
    else do
      let factor ← peeked.parseFactor
      have := factor.closer
      match follows : factor.lexer.peek with
      | (next, ahead) =>
        have kept := unread_of_peek follows
        if sees next Token.opensAtom then do
          let others ← ahead.parseTerm
          have := others.closer
          .ok ⟨.concatenation factor.value others.value, others.lexer, by omega⟩
        else
          .ok ⟨.factor factor.value, ahead, by omega⟩
termination_by 4 * lexer.unread + 2

def parseExpression (lexer : Lexer) : Except SyntaxError (Parsed Pattern (lexer.unread + 1)) := do
  let term ← lexer.parseTerm
  have := term.closer
  match seen : term.lexer.peek with
  | (some (.ok ⟨_, .bar⟩), peeked) =>
    have closer := unread_of_peek_next seen
    let others ← peeked.next.2.parseExpression
    have := others.closer
    .ok ⟨.alternation term.value others.value, others.lexer, by omega⟩
  | (_, peeked) =>
    have same := unread_of_peek seen
    .ok ⟨.term term.value, peeked, by omega⟩
termination_by 4 * lexer.unread + 3

end

end Lexer

/-- The whole text has to be one expression. -/
def Pattern.parse (text : Text) : Except SyntaxError Pattern := do
  let expression ← (Lexer.mk text 0 none).parseExpression
  match expression.lexer.next.1 with
  | none => .ok expression.value
  | some (.ok lexeme) => .error (.trailingInput lexeme.offset lexeme.token)
  | some (.error cause) => .error (.invalidToken cause)

end SumStar
