import SumStar.Pattern.SyntaxError

/-! A lexer takes the text of a pattern token by token and counts the bytes it has passed. One token,
or the error in its place, can be looked at before it is taken. -/

namespace SumStar

/-- A token and the number of bytes in front of it. -/
structure Lexeme where
  offset : Nat
  token : Token
  deriving DecidableEq, Repr

def Lexeme.ofChar (offset : Nat) (c : Char) : Except TokenError Lexeme :=
  match Token.ofChar? c with
  | some token => .ok ⟨offset, token⟩
  | none => .error (.unsupported (Text.escapeCodePoint c))

structure Lexer where
  rest : Text
  byte : Nat := 0
  peeked : Option (Except TokenError Lexeme) := none

namespace Lexer

def next (lexer : Lexer) : Option (Except TokenError Lexeme) × Lexer :=
  match lexer.peeked with
  | some item => (some item, { lexer with peeked := none })
  | none =>
    match lexer.rest with
    | [] => (none, lexer)
    | c :: rest => (some (Lexeme.ofChar lexer.byte c), ⟨rest, lexer.byte + c.utf8Size, none⟩)

def peek (lexer : Lexer) : Option (Except TokenError Lexeme) × Lexer :=
  match lexer.peeked with
  | some item => (some item, lexer)
  | none => (lexer.next.1, { lexer.next.2 with peeked := lexer.next.1 })

/-- What is still to be taken, the token that was looked at included. -/
def unread (lexer : Lexer) : Nat :=
  lexer.rest.length + lexer.peeked.toList.length

variable {lexer behind : Lexer} {item : Option (Except TokenError Lexeme)} {taken : Except TokenError Lexeme}

theorem unread_of_peek (seen : lexer.peek = (item, behind)) : behind.unread = lexer.unread := by
  obtain ⟨rest, byte, peeked⟩ := lexer
  cases peeked with
  | some found => cases seen; rfl
  | none => cases rest <;> cases seen <;> rfl

theorem unread_of_next (read : lexer.next = (some taken, behind)) : behind.unread < lexer.unread := by
  obtain ⟨rest, byte, peeked⟩ := lexer
  cases peeked with
  | some found => cases read; simp [unread]
  | none =>
    cases rest with
    | nil => cases read
    | cons c rest => cases read; simp [unread]

theorem next_of_peek (seen : lexer.peek = (item, behind)) : behind.next = lexer.next ∧ lexer.next.1 = item := by
  obtain ⟨rest, byte, peeked⟩ := lexer
  cases peeked with
  | some found => cases seen; exact ⟨rfl, rfl⟩
  | none => cases rest <;> cases seen <;> exact ⟨rfl, rfl⟩

theorem unread_of_peek_next (seen : lexer.peek = (some taken, behind)) : behind.next.2.unread < lexer.unread := by
  obtain ⟨same, first⟩ := next_of_peek seen
  have read : behind.next = (some taken, behind.next.2) := Prod.ext (by rw [same, first]) rfl
  rw [← unread_of_peek seen]
  exact unread_of_next read

end Lexer
end SumStar
