import SumStar.Proofs.GrammarLanguage
import SumStar.Proofs.SymbolLayers
import SumStar.Symbol.Mention

/-! Mentions of symbols in derived grammars. Over a source without upper-case letters and digits
every letter that is mentioned belongs to a declared symbol. The digits behind it need not: names
are no prefix code, and an exchange of a group that ends in `A` also takes the front of `A1`. As
long as all names are single letters, mentions are names. -/

namespace SumStar

open Text

namespace Grammar

variable {grammar : Grammar} {known : Char → Prop} {count : Nat}

/-- What stands on a right-hand side is known or belongs to the name of a declared symbol. -/
theorem Layered.speltWith_body (layered : grammar.Layered known count) {production : Production}
    (member : production ∈ grammar.startProduction :: grammar.productions) :
    SpeltWith known grammar.nonTerminals.length production.body := by
  rcases List.mem_cons.mp member with rfl | member
  · exact layered.expression
  rcases List.mem_append.mp member with sum | round
  · obtain ⟨position, below, _, spelt⟩ := layered.sums production sum
    exact spelt.mono (Nat.le_trans (Nat.le_of_lt below) layered.few)
  · cases layered.rounds production round with
    | further _ below spelt =>
      intro c inside
      rcases List.mem_append.mp inside with first | named
      · exact spelt.mono layered.few c first
      · exact SpeltWith.nameAt below c named
    | done _ _ => exact fun c inside => nomatch inside

end Grammar

namespace Text.SpeltWith

variable {total : Nat} {text mention : Text}

theorem nameAt_prefix_of_mem_mentions (spelt : SpeltWith (fun c => c.isUpper = false ∧ c.isDigit = false) total text)
    (member : mention ∈ mentions text) : ∃ position < total, Symbol.nameAt position <+: mention := by
  obtain ⟨c, digits, rfl, upper, inside, _⟩ := exists_of_mem_mentions member
  rcases spelt c inside with plain | ⟨position, below, named⟩
  · exact absurd upper (ne_true_of_eq_false plain.1)
  · refine ⟨position % 25, Nat.lt_of_le_of_lt (Nat.mod_le position 25) below, digits, ?_⟩
    rw [Symbol.nameAt_of_lt (Nat.mod_lt position (by decide)), Symbol.letterAt_mod,
      Symbol.eq_letterAt_of_mem_nameAt named upper]
    rfl

/-- Names of the first round have no digits, so nothing can be taken for more than one of them. -/
theorem nameAt_eq_of_mem_mentions (spelt : SpeltWith (fun c => c.isUpper = false ∧ c.isDigit = false) total text)
    (few : total ≤ 25) (member : mention ∈ mentions text) : ∃ position < total, Symbol.nameAt position = mention := by
  obtain ⟨position, below, front⟩ := spelt.nameAt_prefix_of_mem_mentions member
  obtain ⟨c, digits, rfl, upper, inside, each⟩ := exists_of_mem_mentions member
  have none : digits = [] := by
    apply List.eq_nil_iff_forall_not_mem.mpr
    intro d last
    obtain ⟨digit, here⟩ := each d last
    rcases spelt d here with plain | ⟨place, early, named⟩
    · exact absurd digit (ne_true_of_eq_false plain.2)
    · rw [Symbol.nameAt_of_lt (Nat.lt_of_lt_of_le early few), List.mem_singleton] at named
      rw [named] at digit
      exact ne_true_of_eq_false (not_isDigit_of_isUpper (Symbol.isUpper_letterAt place)) digit
  rw [Symbol.nameAt_of_lt (Nat.lt_of_lt_of_le below few)] at front
  refine ⟨position, below, ?_⟩
  rw [Symbol.nameAt_of_lt (Nat.lt_of_lt_of_le below few), none, (List.cons_prefix_cons.mp front).1]

end Text.SpeltWith

namespace Grammar

variable {options : DerivationOptions} {content : Text} {source : Source} {grammar : Grammar}

/-- Every mention begins with the name of a declared symbol, and it is such a name while the names
are single letters. -/
theorem mentions_of_derive (read : Source.ofText content = .ok source)
    (plain : ∀ c ∈ source.expression, c.isUpper = false ∧ c.isDigit = false)
    (derived : derive options content = .ok grammar) :
    ∀ production ∈ grammar.startProduction :: grammar.productions, ∀ mention ∈ mentions production.body,
      (∃ symbol ∈ grammar.nonTerminals, symbol.name <+: mention) ∧
      (grammar.nonTerminals.length ≤ 25 → ∃ symbol ∈ grammar.nonTerminals, symbol.name = mention) := by
  obtain ⟨count, layered⟩ := exists_layered read plain derived
  have declared : ∀ position < grammar.nonTerminals.length, Symbol.nth position ∈ grammar.nonTerminals := by
    intro position below
    rw [layered.declared]
    exact List.mem_map.mpr ⟨position, List.mem_range.mpr below, rfl⟩
  intro production member mention inside
  have spelt := layered.speltWith_body member
  constructor
  · obtain ⟨position, below, front⟩ := spelt.nameAt_prefix_of_mem_mentions inside
    exact ⟨.nth position, declared position below, front⟩
  · intro few
    obtain ⟨position, below, same⟩ := spelt.nameAt_eq_of_mem_mentions few inside
    exact ⟨.nth position, declared position below, same⟩

/-- One symbol for the sum and one for its repetition. -/
theorem mentions_of_derive_repeated_sum :
    let grammar : Grammar :=
      { nonTerminals := [.nth 0, .nth 1]
        terminals := ['a', 'b']
        expression := ['B', 'c']
        sumProductions := [⟨.nth 0, ['a']⟩, ⟨.nth 0, ['b']⟩]
        starProductions := [⟨.nth 1, ['A', 'B']⟩, ⟨.nth 1, []⟩] }
    derive {} ['a', 'b', '\n', '(', 'a', '+', 'b', ')', '*', 'c'] = .ok grammar ∧
      mentions ['A', 'B'] = [['A'], ['B']] ∧
      ∀ production ∈ grammar.startProduction :: grammar.productions, ∀ mention ∈ mentions production.body,
        ∃ symbol ∈ grammar.nonTerminals, symbol.name = mention := by
  intro grammar
  have derived : derive {} ['a', 'b', '\n', '(', 'a', '+', 'b', ')', '*', 'c'] = .ok grammar := by decide +kernel
  let source : Source := ⟨['a', 'b'], ['(', 'a', '+', 'b', ')', '*', 'c']⟩
  have read : Source.ofText ['a', 'b', '\n', '(', 'a', '+', 'b', ')', '*', 'c'] = .ok source := by decide
  have checked : source.expression.all (fun c => !c.isUpper && !c.isDigit) = true := by decide
  have plain : ∀ c ∈ source.expression, c.isUpper = false ∧ c.isDigit = false := fun c member => by
    simpa using List.all_eq_true.mp checked c member
  have few : grammar.nonTerminals.length ≤ 25 := by decide
  refine ⟨derived, by decide, ?_⟩
  intro production member mention inside
  exact (mentions_of_derive read plain derived production member mention inside).2 few

/-- The sum in front takes its `c+A` out of `c+A1` as well, which leaves `B11` behind. -/
theorem exists_undeclared_mention :
    ∃ content source grammar, Source.ofText content = .ok source ∧
      (∀ c ∈ source.expression, c.isUpper = false ∧ c.isDigit = false) ∧
      derive {} content = .ok grammar ∧
      ∃ mention ∈ mentions grammar.expression, ∀ symbol ∈ grammar.nonTerminals, symbol.name ≠ mention := by
  let expression := "c+(aa).ba.bb.bc.bd.be.bf.bg.bh.bi.bj.bk.bl.bm.bn.bo.bp.bq.br.bs.bt.bu.bv.bw.bx.c+(cc)".toList
  have checked : expression.all (fun c => !c.isUpper && !c.isDigit) = true := by decide +kernel
  have plain : ∀ c ∈ expression, c.isUpper = false ∧ c.isDigit = false := fun c member => by
    simpa using List.all_eq_true.mp checked c member
  have answer : ∃ grammar, derive {} ("a,b,c\n".toList ++ expression) = .ok grammar ∧
      ['B', '1', '1'] ∈ mentions grammar.expression ∧ ['B', '1', '1'] ∉ grammar.nonTerminals.map Symbol.name := by
    have computed : ((derive {} ("a,b,c\n".toList ++ expression)).map fun grammar =>
        decide (['B', '1', '1'] ∈ mentions grammar.expression ∧
          ['B', '1', '1'] ∉ grammar.nonTerminals.map Symbol.name)) = .ok true := by decide +kernel
    generalize derive {} _ = outcome at computed
    cases outcome with
    | error cause => cases computed
    | ok grammar => exact ⟨grammar, rfl, of_decide_eq_true (Except.ok.inj computed)⟩
  obtain ⟨grammar, derived, mentioned, absent⟩ := answer
  have undeclared : ∀ symbol ∈ grammar.nonTerminals, symbol.name ≠ ['B', '1', '1'] := fun symbol member same =>
    absent (List.mem_map.mpr ⟨symbol, member, same⟩)
  exact ⟨_, ⟨"a,b,c".toList, expression⟩, grammar, by decide +kernel, plain, derived, _, mentioned, undeclared⟩

end Grammar

end SumStar
