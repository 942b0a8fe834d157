import Mathlib.Logic.ExistsUnique
import SumStar.Proofs.PatternDescent

/-! The texts of patterns as a grammar over four levels, said without trees and without a reader.
It is ambiguous only in how a term ends: a factor may be followed by the empty term or by none.
Trees that never use the former are what reading answers. -/

namespace SumStar

mutual

/-- A term, or a term, a bar and a further expression. -/
inductive WrittenPattern : Text → Prop where
  | term {text : Text} : WrittenTerm text → WrittenPattern text
  | alternation {first others : Text} :
      WrittenTerm first → WrittenPattern others → WrittenPattern (first ++ '|' :: others)

/-- Nothing, or a factor and perhaps a further term. -/
inductive WrittenTerm : Text → Prop where
  | empty : WrittenTerm []
  | factor {text : Text} : WrittenFactor text → WrittenTerm text
  | concatenation {first others : Text} :
      WrittenFactor first → WrittenTerm others → WrittenTerm (first ++ others)

/-- An atom and perhaps a star. -/
inductive WrittenFactor : Text → Prop where
  | atom {text : Text} : WrittenAtom text → WrittenFactor text
  | zeroOrMore {text : Text} : WrittenAtom text → WrittenFactor (text ++ ['*'])

/-- An ordinary character, or an expression between parentheses. -/
inductive WrittenAtom : Text → Prop where
  | char {c : Char} : c ∉ ['(', ')', '|', '*'] → Text.isRefused c = false → WrittenAtom [c]
  | parentheses {text : Text} : WrittenPattern text → WrittenAtom ('(' :: (text ++ [')']))

end

mutual

theorem Pattern.written : ∀ {pattern : Pattern}, pattern.isCanonical = true → WrittenPattern pattern.print
  | .term _, canonical => .term (Term.written canonical)
  | .alternation first others, canonical => by
    simp only [Pattern.isCanonical, Bool.and_eq_true] at canonical
    exact .alternation (Term.written canonical.1) (Pattern.written canonical.2)

theorem Term.written : ∀ {term : Term}, term.isCanonical = true → WrittenTerm term.print
  | .empty, _ => .empty
  | .factor _, canonical => .factor (Factor.written canonical)
  | .concatenation first others, canonical => by
    simp only [Term.isCanonical, Bool.and_eq_true] at canonical
    exact .concatenation (Factor.written canonical.1.1) (Term.written canonical.2)

theorem Factor.written : ∀ {factor : Factor}, factor.isCanonical = true → WrittenFactor factor.print
  | .atom _, canonical => .atom (Atom.written canonical)
  | .zeroOrMore _, canonical => .zeroOrMore (Atom.written canonical)

theorem Atom.written : ∀ {atom : Atom}, atom.isCanonical = true → WrittenAtom atom.print
  | .char _, canonical => .char (Token.isLiteral_iff.mp canonical).1 (Token.isLiteral_iff.mp canonical).2
  | .parentheses _, canonical => .parentheses (Pattern.written canonical)

end

private theorem exists_term_append {first : Factor} {others : Term} (one : first.isCanonical = true)
    (rest : others.isCanonical = true) :
    ∃ term : Term, term.isCanonical = true ∧ term.print = first.print ++ others.print := by
  cases present : others.isEmpty with
  | true =>
    cases others with
    | empty => exact ⟨.factor first, one, by simp [Term.print]⟩
    | factor _ => cases present
    | concatenation _ _ => cases present
  | false => exact ⟨.concatenation first others, by simp [Term.isCanonical, one, rest, present], rfl⟩

mutual

theorem WrittenPattern.exists_tree : ∀ {text : Text}, WrittenPattern text →
    ∃ pattern : Pattern, pattern.isCanonical = true ∧ pattern.print = text
  | _, .term written => by
    obtain ⟨term, canonical, rfl⟩ := written.exists_tree
    exact ⟨.term term, canonical, rfl⟩
  | _, .alternation written others => by
    obtain ⟨term, one, rfl⟩ := written.exists_tree
    obtain ⟨pattern, rest, rfl⟩ := others.exists_tree
    exact ⟨.alternation term pattern, by simp [Pattern.isCanonical, one, rest], rfl⟩

theorem WrittenTerm.exists_tree : ∀ {text : Text}, WrittenTerm text →
    ∃ term : Term, term.isCanonical = true ∧ term.print = text
  | _, .empty => ⟨.empty, rfl, rfl⟩
  | _, .factor written => by
    obtain ⟨factor, canonical, rfl⟩ := written.exists_tree
    exact ⟨.factor factor, canonical, rfl⟩
  | _, .concatenation written others => by
    obtain ⟨factor, one, rfl⟩ := written.exists_tree
    obtain ⟨term, rest, rfl⟩ := others.exists_tree
    exact exists_term_append one rest

theorem WrittenFactor.exists_tree : ∀ {text : Text}, WrittenFactor text →
    ∃ factor : Factor, factor.isCanonical = true ∧ factor.print = text
  | _, .atom written => by
    obtain ⟨atom, canonical, rfl⟩ := written.exists_tree
    exact ⟨.atom atom, canonical, rfl⟩
  | _, .zeroOrMore written => by
    obtain ⟨atom, canonical, rfl⟩ := written.exists_tree
    exact ⟨.zeroOrMore atom, canonical, rfl⟩

theorem WrittenAtom.exists_tree : ∀ {text : Text}, WrittenAtom text →
    ∃ atom : Atom, atom.isCanonical = true ∧ atom.print = text
  | _, .char ordinary accepted => ⟨.char _, Token.isLiteral_iff.mpr ⟨ordinary, accepted⟩, rfl⟩
  | _, .parentheses written => by
    obtain ⟨pattern, canonical, rfl⟩ := written.exists_tree
    exact ⟨.parentheses pattern, canonical, rfl⟩

end

namespace Pattern

theorem exists_parse_iff_written {text : Text} :
    (∃ pattern, parse text = .ok pattern) ↔ WrittenPattern text := by
  constructor
  · intro ⟨pattern, answer⟩
    obtain ⟨rfl, canonical⟩ := print_of_parse answer
    exact written canonical
  · intro text
    obtain ⟨pattern, canonical, rfl⟩ := text.exists_tree
    exact ⟨pattern, parse_print canonical⟩

theorem eq_of_print_eq {first second : Pattern} (one : first.isCanonical = true)
    (other : second.isCanonical = true) (same : first.print = second.print) : first = second := by
  have answer := parse_print one
  rw [same, parse_print other] at answer
  exact (Except.ok.inj answer).symm

/-- Reading and writing are inverse to each other between the texts of the grammar and the
canonical trees; every text of the grammar has one such tree, and no other text is read. -/
theorem parse_print_inverse :
    (∀ text pattern, parse text = .ok pattern → pattern.print = text ∧ pattern.isCanonical = true) ∧
    (∀ pattern : Pattern, pattern.isCanonical = true → parse pattern.print = .ok pattern) ∧
    (∀ text, (∃ pattern, parse text = .ok pattern) ↔ WrittenPattern text) ∧
    (∀ text, WrittenPattern text → ∃! pattern : Pattern, pattern.isCanonical = true ∧ pattern.print = text) ∧
    ∀ c, Token.isLiteral c = true ↔ c ∉ ['(', ')', '|', '*'] ∧ Text.isRefused c = false := by
  refine ⟨fun _ _ => print_of_parse, fun _ => parse_print, fun _ => exists_parse_iff_written, ?_,
    fun _ => Token.isLiteral_iff⟩
  intro text written
  obtain ⟨pattern, canonical, rfl⟩ := written.exists_tree
  refine ⟨pattern, ⟨canonical, rfl⟩, ?_⟩
  intro other ⟨unmixed, same⟩
  exact eq_of_print_eq unmixed canonical same

/-- A starred group that ends in an empty alternative, with an empty alternative behind it. -/
theorem parse_print_inverse_empty_terms :
    let group := Pattern.alternation (.factor (.atom (.char 'a'))) (.term .empty)
    let pattern := Pattern.alternation (.factor (.zeroOrMore (.parentheses group))) (.term .empty)
    parse ['(', 'a', '|', ')', '*', '|'] = .ok pattern ∧
      pattern.print = ['(', 'a', '|', ')', '*', '|'] ∧ pattern.isCanonical = true ∧
      WrittenPattern ['(', 'a', '|', ')', '*', '|'] ∧
      ∃! tree : Pattern, tree.isCanonical = true ∧ tree.print = ['(', 'a', '|', ')', '*', '|'] := by
  intro group pattern
  obtain ⟨printed, read, grammar, unique, _⟩ := parse_print_inverse
  have answer : parse ['(', 'a', '|', ')', '*', '|'] = .ok pattern := read pattern (by decide)
  have written := (grammar _).mp ⟨pattern, answer⟩
  exact ⟨answer, (printed _ _ answer).1, (printed _ _ answer).2, written, unique _ written⟩

end Pattern
end SumStar
