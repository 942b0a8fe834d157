import SumStar.Proofs.FlatEquivalence
import SumStar.Proofs.LevelSums
import SumStar.Proofs.NestedPatterns

/-! Grammars derived from nested expressions. A chain of letters is taken as a sum whatever groups
stand beside it, so a grammar may bind a `+` closer than a product. On level expressions no such
chain arises, and the grammar generates what direct matching accepts. -/

namespace SumStar

open Text

/-- The grammar as it is written out, without the parentheses left in its expression. -/
def Grammar.written (grammar : Grammar) : Grammar :=
  { grammar with expression := withoutParentheses grammar.expression }

theorem Nested.not_isBlank {tree : Nested .sum} (lower : tree.Over fun c => c.isLower = true) :
    ∀ c ∈ tree.text, isBlank c = false := by
  intro c member
  rcases Nested.mem_text lower member with own | rfl | parenthesis
  · obtain ⟨above, below⟩ := toNat_of_isLower own
    exact not_isBlank_of_toNat (by omega) (by omega)
  · decide
  · simp only [isParenthesis, Bool.or_eq_true, beq_iff_eq] at parenthesis
    rcases parenthesis with rfl | rfl <;> decide

theorem reduceStars_of_isWordly {expression : Text} (own : IsWordly expression) (naming : StarNaming)
    (supply : Supply) :
    (reduceStars naming expression supply).expression = expression ∧
      (reduceStars naming expression supply).productions = [] := by
  have none := StarGroup.findAll_of_isWordly own
  cases naming <;> simp [reduceStars, none]

/-- A grammar without repetitions generates what its sums make of the expression. -/
theorem Grammar.generates_assemble {terminals : Text} {sums stars : Reduction} (own : IsWordly sums.expression)
    (numbered : Numbered sums.productions sums.supply) (few : sums.supply.position ≤ 25)
    (expression : stars.expression = sums.expression) (productions : stars.productions = []) (candidate : Text) :
    ∃ valuation : Valuation, valuation.Reads sums.productions ∧
      ((assemble terminals sums stars).written.Generates candidate ↔ candidate ∈ valuation.spell sums.expression) := by
  have all : Numbered (sums.productions ++ stars.productions) sums.supply := by
    rw [productions, List.append_nil]
    exact numbered
  have short : (assemble terminals sums stars).IsShort := isShort_assemble all few
  have plain : (assemble terminals sums stars).written = assemble terminals sums stars := by
    simp only [written, assemble, expression, own.withoutParentheses]
  have reads := reads_valuation short
  have whole : (assemble terminals sums stars).productions = sums.productions := by
    simp only [Grammar.productions, assemble, productions, List.append_nil]
  rw [whole] at reads
  refine ⟨_, reads, ?_⟩
  rw [plain, generates_iff short, ← expression]
  rfl

/-- On a level expression the grammar generates what direct matching accepts, as long as few symbols
are declared. -/
theorem level_derivation_agrees {tree : Nested .sum} (lower : tree.Over fun c => c.isLower = true)
    (level : tree.IsLevel) {terminals : Text} (line : '\n' ∉ terminals) {options : DerivationOptions}
    {grammar : Grammar} (derived : Grammar.derive options (terminals ++ '\n' :: tree.text) = .ok grammar)
    (few : grammar.nonTerminals.length ≤ 25) (candidate : Text) :
    accepts tree.text candidate = .ok true ↔ grammar.written.Generates candidate := by
  have read : Source.ofText (terminals ++ '\n' :: tree.text) =
      .ok ⟨Source.withoutCarriageReturn terminals, tree.text⟩ := by
    rw [Source.ofText_append line, Text.trim_of_not_isBlank (Nested.not_isBlank lower)]
  obtain ⟨sums, reduced, rfl⟩ := Grammar.exists_reduceSums_of_derive read derived
  obtain ⟨scans, last, settles, same⟩ := exists_settles_of_reduceSums reduced
  have numbered : Numbered sums.productions sums.supply := by
    rw [same]
    exact settles.numbered numbered_nil
  have within : sums.supply.position ≤ 25 := Nat.le_trans (Grammar.position_sums_le numbered) few
  obtain ⟨own, means⟩ := reduceSums_level lower level reduced within
  obtain ⟨expression, productions⟩ := reduceStars_of_isWordly own options.naming sums.supply
  obtain ⟨valuation, reads, generates⟩ := Grammar.generates_assemble own numbered within expression productions candidate
  rw [generates, means valuation reads, Nested.accepts_iff lower, Nested.meaning_congr lower reads.letter]
  rfl

/-- A product of two sums, the first of which has a sum within a product. -/
theorem level_derivation_agrees_sum_in_product :
    let inner : Nested .several := .plus (.factor (.letter 'b')) (.term (.factor (.letter 'c')))
    let first : Nested .several :=
      .plus (.factor (.letter 'a')) (.term (.times (.group inner) (.factor (.letter 'd'))))
    let second : Nested .several := .plus (.factor (.letter 'e')) (.term (.factor (.letter 'f')))
    let tree : Nested .sum := .term (.times (.group first) (.factor (.group second)))
    tree.text = "(a+(b+c)d)(e+f)".toList ∧
      ∃ grammar, Grammar.derive {} (['a', '\n'] ++ tree.text) = .ok grammar ∧ grammar.nonTerminals.length = 3 ∧
        ∀ candidate, accepts tree.text candidate = .ok true ↔ grammar.written.Generates candidate := by
  intro inner first second tree
  have lower : tree.Over fun c => c.isLower = true := by
    simp only [tree, first, second, inner, Nested.Over]
    decide
  have level : tree.IsLevel := by
    simp [tree, first, second, inner, Nested.IsLevel, Nested.LevelGroups, Nested.depths, Nested.depth, Aligned]
  let expected : Grammar :=
    { nonTerminals := [.nth 0, .nth 1, .nth 2]
      terminals := ['a']
      expression := ['C', 'B']
      sumProductions := [⟨.nth 0, ['b']⟩, ⟨.nth 0, ['c']⟩, ⟨.nth 1, ['e']⟩, ⟨.nth 1, ['f']⟩, ⟨.nth 2, ['a']⟩,
        ⟨.nth 2, ['A', 'd']⟩]
      starProductions := [] }
  have derived : Grammar.derive {} (['a', '\n'] ++ tree.text) = .ok expected := by decide +kernel
  have written : tree.text = "(a+(b+c)d)(e+f)".toList := by decide
  have line : '\n' ∉ ['a'] := by decide
  have few : expected.nonTerminals.length ≤ 25 := by decide
  exact ⟨written, expected, derived, by decide, level_derivation_agrees lower level line derived few⟩

/-- The first letter of a product is taken into the sum in front of it: the grammar of `a+b(c+d)`
generates `ac`. -/
theorem exists_generated_not_accepted :
    ∃ (tree : Nested .sum) (grammar : Grammar) (candidate : Text), tree.text = "a+b(c+d)".toList ∧
      (tree.Over fun c => c.isLower = true) ∧ Grammar.derive {} ("a,b,c,d\n".toList ++ tree.text) = .ok grammar ∧
      grammar.nonTerminals.length ≤ 25 ∧ grammar.written.Generates candidate ∧
      accepts tree.text candidate = .ok false := by
  let group : Nested .several := .plus (.factor (.letter 'c')) (.term (.factor (.letter 'd')))
  let tree : Nested .sum :=
    .several (.plus (.factor (.letter 'a')) (.term (.times (.letter 'b') (.factor (.group group)))))
  let grammar : Grammar :=
    { nonTerminals := [.nth 0, .nth 1]
      terminals := "a,b,c,d".toList
      expression := ['A', 'B']
      sumProductions := [⟨.nth 0, ['a']⟩, ⟨.nth 0, ['b']⟩, ⟨.nth 1, ['c']⟩, ⟨.nth 1, ['d']⟩]
      starProductions := [] }
  have lower : tree.Over fun c => c.isLower = true := by
    simp only [tree, group, Nested.Over]
    decide
  have derived : Grammar.derive {} ("a,b,c,d\n".toList ++ tree.text) = .ok grammar := by decide +kernel
  have first : Grammar.Step grammar.written ['A', 'B'] ['a', 'B'] := by
    have member : (⟨.nth 0, ['a']⟩ : Production) ∈ grammar.written.productions := by decide
    have taken := Grammar.Step.exchange [] ['B'] member
    rwa [show (Symbol.nth 0).name = ['A'] by decide] at taken
  have second : Grammar.Step grammar.written ['a', 'B'] ['a', 'c'] := by
    have member : (⟨.nth 1, ['c']⟩ : Production) ∈ grammar.written.productions := by decide
    have taken := Grammar.Step.exchange ['a'] [] member
    rwa [show (Symbol.nth 1).name = ['B'] by decide] at taken
  have terminal : grammar.written.IsTerminal ['a', 'c'] := by
    unfold Grammar.IsTerminal
    decide
  have generated : grammar.written.Generates ['a', 'c'] := ⟨.step first (.step second (.refl _)), terminal⟩
  exact ⟨tree, grammar, ['a', 'c'], by decide, lower, derived, by decide, generated, by decide +kernel⟩

end SumStar
