import SumStar.Pattern.Basic
import SumStar.Pattern.Token
import SumStar.Pattern.SyntaxError

/-! Reading a pattern in one pass from left to right. A frame holds what was read since the last open
parenthesis, the frames around it wait for the group to be closed, and a star is applied to the
atom right in front of it. The first token that fits nowhere decides the error. The parser answers
the same, but looks ahead where this keeps frames. -/

namespace SumStar

/-- Alternatives and factors are kept with the latest one first. -/
structure Frame where
  alternatives : List Term := []
  factors : List Factor := []

namespace Frame

def push (frame : Frame) (factor : Factor) : Frame :=
  { frame with factors := factor :: frame.factors }

def openTerm (frame : Frame) : Term :=
  Term.ofFactors frame.factors.reverse

def nextAlternative (frame : Frame) : Frame :=
  ⟨frame.openTerm :: frame.alternatives, []⟩

def pattern (frame : Frame) : Pattern :=
  Pattern.ofTerms frame.openTerm frame.alternatives

end Frame

structure Reading where
  frame : Frame := {}
  around : List Frame := []

namespace Reading

/-- A star needs an atom in front of it that is not starred yet. -/
def star (offset : Nat) (reading : Reading) : Except SyntaxError Reading :=
  match reading.frame.factors with
  | [] => .error .invalidAtomStart
  | .atom atom :: factors =>
    .ok { reading with frame := { reading.frame with factors := .zeroOrMore atom :: factors } }
  | .zeroOrMore _ :: _ =>
    match reading.around with
    | [] => .error (.trailingInput offset .star)
    | _ :: _ => .error (.unexpected "')'".toList .star)

def step (offset : Nat) (token : Token) (reading : Reading) : Except SyntaxError Reading :=
  match token with
  | .char c => .ok { reading with frame := reading.frame.push (.atom (.char c)) }
  | .bar => .ok { reading with frame := reading.frame.nextAlternative }
  | .opening => .ok ⟨{}, reading.frame :: reading.around⟩
  | .closing =>
    match reading.around with
    | [] => .error (.trailingInput offset .closing)
    | outer :: around =>
      .ok ⟨outer.push (.atom (.parentheses reading.frame.pattern)), around⟩
  | .star => reading.star offset

def finish (reading : Reading) : Except SyntaxError Pattern :=
  match reading.around with
  | [] => .ok reading.frame.pattern
  | _ :: _ => .error .unexpectedEnd

def read (reading : Reading) (offset : Nat) : Text → Except SyntaxError Pattern
  | [] => reading.finish
  | c :: rest =>
    match Token.ofChar? c with
    | none => .error (.invalidToken (.unsupported (Text.escapeCodePoint c)))
    | some token => do
      let next ← reading.step offset token
      next.read (offset + c.utf8Size) rest

end Reading
end SumStar
