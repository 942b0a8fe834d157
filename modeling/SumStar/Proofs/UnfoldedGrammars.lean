import SumStar.Proofs.Origins

/-! Unfolding takes derivations back, up to parentheses. It respects the origins of the symbols it
writes out, because an origin holds symbols in front of its own only: what is written out for a
symbol is gone through by the steps still to come, and no other. -/

namespace SumStar

open Text

namespace Grammar

section Unfolding

variable {grammar : Grammar} {known : Char → Prop} {count total larger : Nat} {text : Text} {c : Char}

/-- The first symbols written out in a text, the last one of them first. -/
def unfoldBelow (grammar : Grammar) (count : Nat) (text : Text) : Text :=
  (List.range count).foldr
    (fun position => replaceAll (Symbol.nameAt position)
      (origin grammar.sumProductions grammar.starProductions (.nth position)))
    text

theorem unfoldBelow_succ (grammar : Grammar) (count : Nat) (text : Text) :
    grammar.unfoldBelow (count + 1) text =
      grammar.unfoldBelow count (replaceAll (Symbol.nameAt count)
        (origin grammar.sumProductions grammar.starProductions (.nth count)) text) := by
  simp [unfoldBelow, List.range_succ]

theorem unfold_eq (declared : grammar.nonTerminals = (List.range total).map .nth) :
    grammar.unfold = grammar.unfoldBelow total grammar.expression := by
  rw [unfold, declared, List.foldr_map]
  rfl

theorem unfoldBelow_append (few : count ≤ 25) (first second : Text) :
    grammar.unfoldBelow count (first ++ second) = grammar.unfoldBelow count first ++ grammar.unfoldBelow count second := by
  induction count generalizing first second with
  | zero => rfl
  | succ count ih =>
    simp only [unfoldBelow_succ, Symbol.nameAt_of_lt few]
    rw [replaceAll_singleton_append, ih (Nat.le_of_succ_le few)]

theorem unfoldBelow_nil (grammar : Grammar) (count : Nat) : grammar.unfoldBelow count [] = [] := by
  induction count with
  | zero => rfl
  | succ count ih => rw [unfoldBelow_succ, replaceAll_nil, ih]

/-- A text over the first symbols does not change when later ones are written out. -/
theorem unfoldBelow_of_speltWith (more : count ≤ larger) (few : larger ≤ 25)
    (spelt : SpeltWith (fun c => c.isUpper = false) count text) :
    grammar.unfoldBelow larger text = grammar.unfoldBelow count text := by
  induction larger, more using Nat.le_induction with
  | base => rfl
  | succ larger more ih =>
    have absent : Symbol.letterAt larger ∉ text := by
      intro member
      rcases spelt _ member with plain | ⟨position, below, named⟩
      · rw [Symbol.isUpper_letterAt] at plain
        cases plain
      · rw [Symbol.nameAt_of_lt (by omega), List.mem_singleton] at named
        have same := Symbol.letterAt_injective few (by omega) named
        omega
    have apart : ¬ [Symbol.letterAt larger] <:+: text := fun inside =>
      absent ((List.singleton_infix_iff _ _).mp inside)
    rw [unfoldBelow_succ, Symbol.nameAt_of_lt few, replaceAll_of_absent (List.cons_ne_nil _ _) apart,
      ih (Nat.le_of_succ_le few)]

theorem unfoldBelow_nameAt {position : Nat} (below : position < count) (few : count ≤ 25)
    (spelt : SpeltWith (fun c => c.isUpper = false) position
      (origin grammar.sumProductions grammar.starProductions (.nth position))) :
    grammar.unfoldBelow count (Symbol.nameAt position) =
      grammar.unfoldBelow count (origin grammar.sumProductions grammar.starProductions (.nth position)) := by
  have own : SpeltWith (fun c => c.isUpper = false) (position + 1) (Symbol.nameAt position) :=
    .nameAt (Nat.lt_succ_self position)
  have exchanged := replaceAll_append_of_ne_nil (Symbol.nameAt_ne_nil position)
    (origin grammar.sumProductions grammar.starProductions (.nth position)) []
  rw [List.append_nil, replaceAll_nil, List.append_nil] at exchanged
  rw [unfoldBelow_of_speltWith below few own, unfoldBelow_of_speltWith (Nat.le_of_lt below) few spelt,
    unfoldBelow_succ, exchanged]

/-- The origin of a sum holds symbols in front of its own only. -/
theorem Layered.origin_sum (layered : grammar.Layered known count) (plus : known '+') {production : Production}
    (member : production ∈ grammar.sumProductions) :
    ∃ position < count, production.head = .nth position ∧
      SpeltWith known position (origin grammar.sumProductions grammar.starProductions production.head) := by
  obtain ⟨position, below, headed, _⟩ := layered.sums production member
  refine ⟨position, below, headed, ?_⟩
  rw [origin_of_sum (bodiesOf_ne_nil member)]
  intro c inside
  rcases mem_intercalate inside with rfl | ⟨body, listed, here⟩
  · exact Or.inl plus
  · obtain ⟨other, otherMember, same, rfl⟩ := mem_of_mem_bodiesOf listed
    obtain ⟨place, _, placed, spelt⟩ := layered.sums other otherMember
    obtain rfl : place = position := Symbol.nth.inj (placed.symm.trans (same.trans headed))
    exact spelt c here

/-- The origin of a repetition holds symbols of sums only, if the repetition is a single one. -/
theorem Layered.origin_round (layered : grammar.Layered known count) (star : known '*') {production : Production}
    (member : production ∈ grammar.starProductions) :
    ∃ position < grammar.nonTerminals.length, production.head = .nth position ∧
      (origin grammar.sumProductions grammar.starProductions production.head = production.head.name ∨
        SpeltWith known position (origin grammar.sumProductions grammar.starProductions production.head)) := by
  have headed : ∃ position < grammar.nonTerminals.length, count ≤ position ∧ production.head = .nth position := by
    cases layered.rounds production member with
    | further above below _ => exact ⟨_, below, above, rfl⟩
    | done above below => exact ⟨_, below, above, rfl⟩
  obtain ⟨position, below, above, headed⟩ := headed
  refine ⟨position, below, headed, ?_⟩
  have none : bodiesOf production.head grammar.sumProductions = [] := by
    apply bodiesOf_eq_nil
    intro sum listed same
    obtain ⟨place, first, placed⟩ := layered.headed.mem_iff.mp ⟨sum, listed, same⟩
    have := Symbol.nth.inj (headed.symm.trans placed)
    omega
  simp only [origin, none]
  split
  next round repeated =>
    split
    next =>
      apply Or.inr
      obtain ⟨other, otherMember, same, rfl⟩ := mem_of_mem_bodiesOf (repeated ▸ List.mem_cons_self)
      have first : SpeltWith known count (other.body.take (other.body.length - production.head.name.length)) := by
        cases layered.rounds other otherMember with
        | further _ _ spelt =>
          rw [← same]
          simpa [Symbol.name] using spelt
        | done _ _ =>
          intro c inside
          rw [List.take_nil] at inside
          cases inside
      intro c inside
      rcases List.mem_append.mp inside with taken | last
      · exact first.mono above c taken
      · rw [List.mem_singleton.mp last]
        exact Or.inl star
    next => exact Or.inl rfl
  next => exact Or.inl rfl

theorem flatMap_unfoldBelow (few : total ≤ 25) (text : Text) :
    text.flatMap (fun c => withoutParentheses (grammar.unfoldBelow total [c])) =
      withoutParentheses (grammar.unfoldBelow total text) := by
  induction text with
  | nil =>
    rw [unfoldBelow_nil]
    rfl
  | cons c text ih =>
    rw [List.flatMap_cons, ih, ← withoutParentheses_append, ← unfoldBelow_append few, List.singleton_append]

theorem unfoldBelow_of_plain (few : total ≤ 25) (plain : ∀ c ∈ text, c.isUpper = false) :
    grammar.unfoldBelow total text = text :=
  unfoldBelow_of_speltWith (Nat.zero_le total) few fun c member => Or.inl (plain c member)

theorem Layered.writesOut (layered : grammar.Layered (fun c => c.isUpper = false) count)
    (few : grammar.nonTerminals.length ≤ 25) :
    WritesOut (fun c => withoutParentheses (grammar.unfoldBelow grammar.nonTerminals.length [c]))
      grammar.sumProductions grammar.starProductions where
  parenthesis := by
    intro c parenthesis
    have plain : c.isUpper = false := by
      rcases Bool.or_eq_true_iff.mp parenthesis with opening | closing
      · rw [eq_of_beq opening]
        rfl
      · rw [eq_of_beq closing]
        rfl
    rw [unfoldBelow_of_plain few (by simpa using plain)]
    simp [withoutParentheses, parenthesis]
  head := by
    intro production member
    rw [flatMap_unfoldBelow few, flatMap_unfoldBelow few]
    have layer : ∃ position < grammar.nonTerminals.length, production.head = .nth position ∧
        (origin grammar.sumProductions grammar.starProductions production.head = production.head.name ∨
          SpeltWith (fun c => c.isUpper = false) position
            (origin grammar.sumProductions grammar.starProductions production.head)) := by
      rcases List.mem_append.mp member with sum | round
      · obtain ⟨position, below, headed, spelt⟩ := layered.origin_sum rfl sum
        exact ⟨position, Nat.lt_of_lt_of_le below layered.few, headed, Or.inr spelt⟩
      · exact layered.origin_round rfl round
    obtain ⟨position, below, headed, same | spelt⟩ := layer
    · rw [same]
    · rw [headed] at spelt ⊢
      exact congrArg withoutParentheses (unfoldBelow_nameAt below few spelt)

end Unfolding

variable {memory : GroupMemory} {content : Text} {source : Source} {grammar : Grammar}

/-- Unfolding takes a derivation back, up to parentheses. -/
theorem unfold_of_derive (read : Source.ofText content = .ok source)
    (plain : ∀ c ∈ source.expression, c.isUpper = false) (apart : ¬ [')', '+'] <:+: source.expression)
    (derived : derive ⟨memory, .separate⟩ content = .ok grammar) (few : grammar.nonTerminals.length ≤ 25) :
    withoutParentheses grammar.unfold = withoutParentheses source.expression := by
  obtain ⟨count, layered⟩ := exists_layered read plain derived
  calc
    withoutParentheses grammar.unfold
        = withoutParentheses (grammar.unfoldBelow grammar.nonTerminals.length grammar.expression) := by
          rw [unfold_eq layered.declared]
    _ = grammar.expression.flatMap
          fun c => withoutParentheses (grammar.unfoldBelow grammar.nonTerminals.length [c]) :=
          (flatMap_unfoldBelow few _).symm
    _ = source.expression.flatMap
          fun c => withoutParentheses (grammar.unfoldBelow grammar.nonTerminals.length [c]) :=
          flatMap_expression_of_derive read apart derived (layered.writesOut few)
    _ = withoutParentheses (grammar.unfoldBelow grammar.nonTerminals.length source.expression) :=
          flatMap_unfoldBelow few _
    _ = withoutParentheses source.expression := by rw [unfoldBelow_of_plain few plain]

/-- The group of the outer sum takes the opening parenthesis only, the closing one is left alone. -/
theorem unfold_of_derive_unbalanced :
    ∃ grammar, derive ⟨.scan, .separate⟩ ['a', 'b', '\n', '(', 'c', '+', '(', 'a', '+', 'b', ')', '*', ')', 'a', '*'] =
        .ok grammar ∧
      grammar.expression = ['C', ')', 'D'] ∧ grammar.nonTerminals.length ≤ 25 ∧
      withoutParentheses grammar.unfold = ['c', '+', 'a', '+', 'b', '*', 'a', '*'] := by
  let derived : Grammar :=
    { nonTerminals := [.nth 0, .nth 1, .nth 2, .nth 3]
      terminals := ['a', 'b']
      expression := ['C', ')', 'D']
      sumProductions := [⟨.nth 0, ['a']⟩, ⟨.nth 0, ['b']⟩, ⟨.nth 1, ['c']⟩, ⟨.nth 1, ['A']⟩]
      starProductions := [⟨.nth 2, ['B', 'C']⟩, ⟨.nth 2, []⟩, ⟨.nth 3, ['a', 'D']⟩, ⟨.nth 3, []⟩] }
  have answer : derive ⟨.scan, .separate⟩
      ['a', 'b', '\n', '(', 'c', '+', '(', 'a', '+', 'b', ')', '*', ')', 'a', '*'] = .ok derived := by decide +kernel
  let source : Source := ⟨['a', 'b'], ['(', 'c', '+', '(', 'a', '+', 'b', ')', '*', ')', 'a', '*']⟩
  have read : Source.ofText ['a', 'b', '\n', '(', 'c', '+', '(', 'a', '+', 'b', ')', '*', ')', 'a', '*'] = .ok source := by
    decide
  have checked : source.expression.all (fun c => !c.isUpper) = true := by decide
  have plain : ∀ c ∈ source.expression, c.isUpper = false := fun c member => by
    simpa using List.all_eq_true.mp checked c member
  have apart : ¬ [')', '+'] <:+: source.expression := by decide
  have few : derived.nonTerminals.length ≤ 25 := by decide
  exact ⟨derived, answer, rfl, few, unfold_of_derive read plain apart answer few⟩

end Grammar

end SumStar
