import Mathlib.Computability.Language
import SumStar.Pattern.Basic

/-! The language of a pattern: union for alternatives, concatenation for the factors of a term,
Kleene closure for a repeated atom. Parentheses only group. -/

namespace SumStar

open Computability

mutual

def Pattern.language : Pattern → Language Char
  | .term term => term.language
  | .alternation first others => first.language + others.language

def Term.language : Term → Language Char
  | .empty => 1
  | .factor factor => factor.language
  | .concatenation first others => first.language * others.language

def Factor.language : Factor → Language Char
  | .atom atom => atom.language
  | .zeroOrMore atom => KStar.kstar atom.language

def Atom.language : Atom → Language Char
  | .char c => {[c]}
  | .parentheses pattern => pattern.language

end

end SumStar
