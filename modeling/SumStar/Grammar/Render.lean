import SumStar.Grammar.Basic

/-! A grammar is written line by line: the declared symbols, the terminals, the start symbol, the
start production, then the other productions in order. No line feed follows the last line.
Parentheses that the reductions left standing are dropped everywhere. -/

namespace SumStar.Grammar

def fileExtension : Text :=
  ".gld".toList

def declaration (grammar : Grammar) : Text :=
  [','].intercalate ((Symbol.start :: grammar.nonTerminals).map Symbol.name)

def lines (grammar : Grammar) : List Text :=
  [grammar.declaration, grammar.terminals, Symbol.start.name, grammar.startProduction.render] ++
    grammar.productions.map Production.render

def render (grammar : Grammar) : Text :=
  Text.withoutParentheses (['\n'].intercalate grammar.lines)

end SumStar.Grammar
