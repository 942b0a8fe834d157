import SumStar.Proofs.ComposedSources
import SumStar.Proofs.FlatPatterns
import SumStar.Proofs.NestedSums

/-! Direct matching of nested expressions. Flattened into a pattern such an expression is read as the
tree it is the text of, grade by grade, and the language of that pattern is what the expression
stands for when every letter stands for itself. -/

namespace SumStar

open Computability

/-- The parts of patterns that the grades are read as. -/
def Grade.Part : Grade → Type
  | atom => Atom
  | product => Term
  | several => Pattern
  | sum => Pattern

/-- The part is canonical, it is written as the text, and its language is the given one. -/
def Grade.Reads : (grade : Grade) → grade.Part → Text → Language Char → Prop
  | atom, (part : Atom), text, language => part.isCanonical = true ∧ part.print = text ∧ part.language = language
  | product, (part : Term), text, language =>
    part.isCanonical = true ∧ part.isEmpty = false ∧ part.print = text ∧ part.language = language
  | several, (part : Pattern), text, language => part.isCanonical = true ∧ part.print = text ∧ part.language = language
  | sum, (part : Pattern), text, language => part.isCanonical = true ∧ part.print = text ∧ part.language = language

namespace Nested

variable {grade : Grade}

def part {grade : Grade} : Nested grade → grade.Part
  | letter c => Atom.char c
  | group inner => Atom.parentheses inner.part
  | factor only => Term.factor (.atom only.part)
  | times first others => Term.concatenation (.atom first.part) others.part
  | plus first others => Pattern.alternation first.part others.part
  | term only => Pattern.term only.part
  | several inner => inner.part

private theorem isCanonical_concatenation {atom : Atom} {others : Term} (one : atom.isCanonical = true)
    (other : others.isCanonical = true) (filled : others.isEmpty = false) :
    (Term.concatenation (.atom atom) others).isCanonical = true := by
  simp [Term.isCanonical, Factor.isCanonical, one, other, filled]

private theorem isCanonical_alternation {first : Term} {others : Pattern} (one : first.isCanonical = true)
    (other : others.isCanonical = true) : (Pattern.alternation first others).isCanonical = true := by
  simp [Pattern.isCanonical, one, other]

theorem reads_part {tree : Nested grade} (lower : tree.Over fun c => c.isLower = true) :
    grade.Reads tree.part (flatten tree.text) (tree.meaning .plain) := by
  induction tree with
  | letter c =>
    have kept : flatten [c] = [c] := flatten_of_isLower fun d member => List.mem_singleton.mp member ▸ lower
    exact ⟨isLiteral_of_isLower lower, kept.symm, rfl⟩
  | group inner ih =>
    obtain ⟨canonical, written, means⟩ := ih lower
    refine ⟨canonical, ?_, means⟩
    rw [text, ← List.singleton_append, flatten_append, flatten_append, ← written]
    rfl
  | factor only ih =>
    obtain ⟨canonical, written, means⟩ := ih lower
    exact ⟨canonical, rfl, written, means⟩
  | times first others one other =>
    obtain ⟨canonical, written, means⟩ := one lower.1
    obtain ⟨canonicals, filled, writtens, meanings⟩ := other lower.2
    refine ⟨isCanonical_concatenation canonical canonicals filled, rfl, ?_, ?_⟩
    · rw [text, flatten_append, ← written, ← writtens]
      rfl
    · rw [meaning, ← means, ← meanings]
      rfl
  | plus first others one other =>
    obtain ⟨canonical, _, written, means⟩ := one lower.1
    obtain ⟨canonicals, writtens, meanings⟩ := other lower.2
    refine ⟨isCanonical_alternation canonical canonicals, ?_, ?_⟩
    · rw [text, flatten_append, ← written, ← List.singleton_append, flatten_append, ← writtens]
      rfl
    · rw [meaning, ← means, ← meanings]
      rfl
  | term only ih =>
    obtain ⟨canonical, _, written, means⟩ := ih lower
    exact ⟨canonical, written, means⟩
  | several inner ih => exact ih lower

theorem accepts_iff {tree : Nested .sum} (lower : tree.Over fun c => c.isLower = true) (candidate : Text) :
    accepts tree.text candidate = .ok true ↔ candidate ∈ tree.meaning .plain := by
  have read : ∃ pattern : Pattern, pattern.isCanonical = true ∧ pattern.print = flatten tree.text ∧
      pattern.language = tree.meaning .plain := ⟨tree.part, reads_part lower⟩
  obtain ⟨pattern, canonical, written, means⟩ := read
  rw [accepts_of_print canonical written candidate, ← means, ← Pattern.isFullMatch_iff]
  exact ⟨Except.ok.inj, congrArg Except.ok⟩

end Nested
end SumStar
