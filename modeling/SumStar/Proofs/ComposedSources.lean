import Mathlib
import SumStar.Matching.Acceptance
import SumStar.Proofs.MatchingLanguage
import SumStar.Proofs.PatternDescent

/-! Expressions put together from readable ones. Each of the three ways to do so in the notation of
sources gives a text that is read as the expected tree over the trees of the parts, because a
canonical tree is read wherever its text stands. What is accepted then follows from the languages of
the trees. -/

namespace SumStar

open Computability

namespace Pattern

variable {first second : Pattern}

/-- The alternatives of one pattern and then those of the other. -/
def either : Pattern → Pattern → Pattern
  | .term last, others => .alternation last others
  | .alternation first rest, others => .alternation first (rest.either others)

/-- The group of the one pattern and then that of the other. -/
def both (first second : Pattern) : Pattern :=
  .term (.concatenation (.atom (.parentheses first)) (.factor (.atom (.parentheses second))))

/-- The group of the pattern any number of times. -/
def repeated (pattern : Pattern) : Pattern :=
  .term (.factor (.zeroOrMore (.parentheses pattern)))

theorem print_either : ∀ first others : Pattern, (first.either others).print = first.print ++ '|' :: others.print
  | .term _, _ => rfl
  | .alternation first rest, others => by
    rw [either, print, print_either rest others, print]
    simp

theorem isCanonical_either : ∀ {first others : Pattern}, first.isCanonical = true → others.isCanonical = true →
    (first.either others).isCanonical = true
  | .term _, _, one, other => by
    rw [either, isCanonical, other, Bool.and_true]
    exact one
  | .alternation _ _, _, one, other => by
    simp only [isCanonical, Bool.and_eq_true] at one
    rw [either, isCanonical, one.1, isCanonical_either one.2 other]
    rfl

theorem language_either : ∀ first others : Pattern, (first.either others).language = first.language + others.language
  | .term _, _ => rfl
  | .alternation first rest, others => by
    rw [either, language, language_either rest others, language, add_assoc]

theorem print_both (first second : Pattern) :
    (first.both second).print = '(' :: (first.print ++ [')', '('] ++ second.print ++ [')']) := by
  simp [both, print, Term.print, Factor.print, Atom.print]

theorem isCanonical_both (one : first.isCanonical = true) (other : second.isCanonical = true) :
    (first.both second).isCanonical = true := by
  simp [both, isCanonical, Term.isCanonical, Term.isEmpty, Factor.isCanonical, Atom.isCanonical, one, other]

theorem print_repeated (pattern : Pattern) : pattern.repeated.print = '(' :: (pattern.print ++ [')', '*']) := by
  simp [repeated, print, Term.print, Factor.print, Atom.print]

end Pattern

variable {expression candidate : Text} {pattern : Pattern}

theorem accepts_of_print (canonical : pattern.isCanonical = true) (written : pattern.print = flatten expression)
    (candidate : Text) : accepts expression candidate = .ok (pattern.isFullMatch candidate) := by
  have answer := Pattern.parse_print canonical
  rw [written] at answer
  rw [accepts, answer]
  rfl

theorem exists_tree_of_readable (readable : ∃ pattern, Pattern.parse (flatten expression) = .ok pattern) :
    ∃ pattern : Pattern, pattern.isCanonical = true ∧ pattern.print = flatten expression ∧
      ∀ candidate, accepts expression candidate = .ok true ↔ candidate ∈ pattern.language := by
  obtain ⟨pattern, answer⟩ := readable
  obtain ⟨written, canonical⟩ := Pattern.print_of_parse answer
  refine ⟨pattern, canonical, written, fun candidate => ?_⟩
  rw [accepts_of_print canonical written, ← pattern.isFullMatch_iff]
  exact ⟨Except.ok.inj, congrArg Except.ok⟩

section Composition

variable {first second : Text} (one : ∃ pattern, Pattern.parse (flatten first) = .ok pattern)
include one

/-- A sum answers what one of its sides accepts. -/
theorem accepts_sum (other : ∃ pattern, Pattern.parse (flatten second) = .ok pattern) (candidate : Text) :
    ∃ here there, accepts first candidate = .ok here ∧ accepts second candidate = .ok there ∧
      accepts (first ++ '+' :: second) candidate = .ok (here || there) := by
  obtain ⟨left, leftAnswer⟩ := one
  obtain ⟨right, rightAnswer⟩ := other
  obtain ⟨leftWritten, leftCanonical⟩ := Pattern.print_of_parse leftAnswer
  obtain ⟨rightWritten, rightCanonical⟩ := Pattern.print_of_parse rightAnswer
  have written : (left.either right).print = flatten (first ++ '+' :: second) := by
    rw [Pattern.print_either, leftWritten, rightWritten, flatten_append]
    rfl
  have union : (left.either right).isFullMatch candidate =
      (left.isFullMatch candidate || right.isFullMatch candidate) := by
    rw [Bool.eq_iff_iff, Bool.or_eq_true, Pattern.isFullMatch_iff, Pattern.isFullMatch_iff, Pattern.isFullMatch_iff,
      Pattern.language_either]
    exact Language.mem_add _ _ _
  refine ⟨_, _, accepts_of_print leftCanonical leftWritten candidate,
    accepts_of_print rightCanonical rightWritten candidate, ?_⟩
  rw [accepts_of_print (Pattern.isCanonical_either leftCanonical rightCanonical) written, union]

/-- Two groups behind each other accept a candidate that splits between them. -/
theorem accepts_product (other : ∃ pattern, Pattern.parse (flatten second) = .ok pattern) (candidate : Text) :
    ∃ answer, accepts ('(' :: (first ++ [')', '('] ++ second ++ [')'])) candidate = .ok answer ∧
      (answer = true ↔ ∃ front back, candidate = front ++ back ∧
        accepts first front = .ok true ∧ accepts second back = .ok true) := by
  obtain ⟨left, leftCanonical, leftWritten, leftAccepts⟩ := exists_tree_of_readable one
  obtain ⟨right, rightCanonical, rightWritten, rightAccepts⟩ := exists_tree_of_readable other
  have written : (left.both right).print = flatten ('(' :: (first ++ [')', '('] ++ second ++ [')'])) := by
    rw [Pattern.print_both, leftWritten, rightWritten]
    simp [flatten]
  refine ⟨_, accepts_of_print (Pattern.isCanonical_both leftCanonical rightCanonical) written candidate, ?_⟩
  have product : (left.both right).language = left.language * right.language := rfl
  rw [Pattern.isFullMatch_iff, product, Language.mem_mul]
  simp only [leftAccepts, rightAccepts]
  constructor
  · rintro ⟨front, here, back, there, rfl⟩
    exact ⟨front, back, rfl, here, there⟩
  · rintro ⟨front, back, rfl, here, there⟩
    exact ⟨front, here, back, there, rfl⟩

/-- A starred group accepts what is put together from candidates of the group. -/
theorem accepts_repetition (candidate : Text) :
    ∃ answer, accepts ('(' :: (first ++ [')', '*'])) candidate = .ok answer ∧
      (answer = true ↔ ∃ pieces : List Text, candidate = pieces.flatten ∧
        ∀ piece ∈ pieces, accepts first piece = .ok true) := by
  obtain ⟨inner, canonical, innerWritten, innerAccepts⟩ := exists_tree_of_readable one
  have written : inner.repeated.print = flatten ('(' :: (first ++ [')', '*'])) := by
    rw [Pattern.print_repeated, innerWritten]
    simp [flatten]
  have whole : inner.repeated.isCanonical = true := canonical
  refine ⟨_, accepts_of_print whole written candidate, ?_⟩
  have closure : inner.repeated.language = KStar.kstar inner.language := rfl
  rw [Pattern.isFullMatch_iff, closure, Language.mem_kstar]
  simp only [innerAccepts]

end Composition

/-- Acceptance follows how an expression is put together, whatever readable texts the parts are. -/
theorem accepts_composed (first second candidate : Text)
    (one : ∃ pattern, Pattern.parse (flatten first) = .ok pattern)
    (other : ∃ pattern, Pattern.parse (flatten second) = .ok pattern) :
    (∃ here there, accepts first candidate = .ok here ∧ accepts second candidate = .ok there ∧
      accepts (first ++ '+' :: second) candidate = .ok (here || there)) ∧
    (∃ answer, accepts ('(' :: (first ++ [')', '('] ++ second ++ [')'])) candidate = .ok answer ∧
      (answer = true ↔ ∃ front back, candidate = front ++ back ∧
        accepts first front = .ok true ∧ accepts second back = .ok true)) ∧
    ∃ answer, accepts ('(' :: (first ++ [')', '*'])) candidate = .ok answer ∧
      (answer = true ↔ ∃ pieces : List Text, candidate = pieces.flatten ∧
        ∀ piece ∈ pieces, accepts first piece = .ok true) :=
  ⟨accepts_sum one other candidate, accepts_product one other candidate, accepts_repetition one candidate⟩

/-- The sum of two sums, their product and the repetition of the first, which has an empty summand. -/
theorem accepts_composed_empty_summand :
    (∃ pattern, Pattern.parse (flatten ['a', '+']) = .ok pattern) ∧
    (∃ pattern, Pattern.parse (flatten ['b', '+', 'c', '*']) = .ok pattern) ∧
    accepts ['a', '+', '+', 'b', '+', 'c', '*'] ['c', 'c'] = .ok true ∧
    accepts ['a', '+', '+', 'b', '+', 'c', '*'] ['a', 'c'] = .ok false ∧
    accepts ['(', 'a', '+', ')', '(', 'b', '+', 'c', '*', ')'] ['a', 'c', 'c'] = .ok true ∧
    accepts ['(', 'a', '+', ')', '(', 'b', '+', 'c', '*', ')'] ['c', 'a'] = .ok false ∧
    accepts ['(', 'a', '+', ')', '*'] ['a', 'a'] = .ok true ∧
    accepts ['(', 'a', '+', ')', '*'] ['b'] = .ok false := by
  have one : ∃ pattern, Pattern.parse (flatten ['a', '+']) = .ok pattern :=
    ⟨.alternation (.factor (.atom (.char 'a'))) (.term .empty), by cbv⟩
  have other : ∃ pattern, Pattern.parse (flatten ['b', '+', 'c', '*']) = .ok pattern :=
    ⟨.alternation (.factor (.atom (.char 'b'))) (.term (.factor (.zeroOrMore (.char 'c')))), by cbv⟩
  refine ⟨one, other, ?_, ?_, ?_, ?_, ?_, ?_⟩
  · obtain ⟨⟨here, there, first, second, sum⟩, _⟩ := accepts_composed _ _ ['c', 'c'] one other
    cases second.symm.trans (by cbv : accepts ['b', '+', 'c', '*'] ['c', 'c'] = .ok true)
    rwa [Bool.or_true] at sum
  · obtain ⟨⟨here, there, first, second, sum⟩, _⟩ := accepts_composed _ _ ['a', 'c'] one other
    cases first.symm.trans (by cbv : accepts ['a', '+'] ['a', 'c'] = .ok false)
    cases second.symm.trans (by cbv : accepts ['b', '+', 'c', '*'] ['a', 'c'] = .ok false)
    exact sum
  · obtain ⟨_, ⟨answer, product, split⟩, _⟩ := accepts_composed _ _ ['a', 'c', 'c'] one other
    rw [split.mpr ⟨['a'], ['c', 'c'], rfl, by cbv, by cbv⟩] at product
    exact product
  · obtain ⟨_, ⟨answer, product, split⟩, _⟩ := accepts_composed _ _ ['c', 'a'] one other
    have apart : ¬ answer = true := by
      rw [split]
      rintro ⟨front, back, same, first, second⟩
      rcases List.append_eq_cons_iff.mp same.symm with ⟨rfl, rfl⟩ | ⟨rest, rfl, left⟩
      · cases second.symm.trans (by cbv : accepts ['b', '+', 'c', '*'] ['c', 'a'] = .ok false)
      · rcases List.append_eq_cons_iff.mp left.symm with ⟨rfl, rfl⟩ | ⟨last, rfl, nothing⟩
        · cases first.symm.trans (by cbv : accepts ['a', '+'] ['c'] = .ok false)
        · obtain ⟨rfl, rfl⟩ := List.append_eq_nil_iff.mp nothing.symm
          cases first.symm.trans (by cbv : accepts ['a', '+'] ['c', 'a'] = .ok false)
    rw [Bool.eq_false_iff.mpr apart] at product
    exact product
  · obtain ⟨_, _, answer, repetition, pieces⟩ := accepts_composed _ _ ['a', 'a'] one other
    have each : ∀ piece ∈ [['a'], ['a']], accepts ['a', '+'] piece = .ok true := by
      intro piece member
      obtain rfl : piece = ['a'] := by simpa using member
      cbv
    rw [pieces.mpr ⟨[['a'], ['a']], rfl, each⟩] at repetition
    exact repetition
  · obtain ⟨_, _, answer, repetition, pieces⟩ := accepts_composed _ _ ['b'] one other
    have foreign : ¬ answer = true := by
      rw [pieces]
      rintro ⟨pieces, same, each⟩
      have inside : 'b' ∈ pieces.flatten := same ▸ List.mem_singleton_self 'b'
      obtain ⟨piece, member, letter⟩ := List.mem_flatten.mp inside
      have short : piece.Sublist ['b'] := same ▸ List.sublist_flatten_of_mem member
      obtain rfl : piece = ['b'] := short.eq_of_length_le (List.length_pos_of_mem letter)
      cases (each _ member).symm.trans (by cbv : accepts ['a', '+'] ['b'] = .ok false)
    rw [Bool.eq_false_iff.mpr foreign] at repetition
    exact repetition

end SumStar
