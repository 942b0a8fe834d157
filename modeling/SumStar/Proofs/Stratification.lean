import Mathlib.Logic.Relation
import SumStar.Proofs.SymbolMentions

/-! Derived grammars are stratified. A sum is made of symbols declared in front of its own, a repetition
of symbols of sums, and behind its round stands the symbol itself: nothing else leads back to a
symbol from its own productions. Names are single letters here, so a letter tells its symbol. -/

namespace SumStar

open Text

variable {known : Char → Prop} {count total position : Nat} {text : Text} {c : Char}

theorem Text.SpeltWith.exists_nameAt_eq (spelt : SpeltWith (fun c => c.isUpper = false) count text) (few : count ≤ 25)
    (member : c ∈ text) (upper : c.isUpper = true) : ∃ position < count, Symbol.nameAt position = [c] := by
  rcases spelt c member with plain | ⟨position, below, named⟩
  · exact absurd upper (ne_true_of_eq_false plain)
  · refine ⟨position, below, ?_⟩
    rw [Symbol.nameAt_of_lt (Nat.lt_of_lt_of_le below few), Symbol.eq_letterAt_of_mem_nameAt named upper]

theorem Text.SpeltWith.lt_of_infix (spelt : SpeltWith (fun c => c.isUpper = false) count text) (few : count ≤ 25)
    (short : position < 25) (inside : Symbol.nameAt position <:+: text) : position < count := by
  rw [Symbol.nameAt_of_lt short] at inside
  obtain ⟨other, below, same⟩ := spelt.exists_nameAt_eq few (inside.subset (List.mem_singleton_self _))
    (Symbol.isUpper_letterAt position)
  rw [← Symbol.nameAt_of_lt short] at same
  exact Symbol.nameAt_injective same ▸ below

namespace Grammar

variable {grammar : Grammar}

/-- A production of the first symbol has the name of the second in its body. -/
def Uses (grammar : Grammar) (user used : Symbol) : Prop :=
  ∃ production ∈ grammar.productions, production.head = user ∧ used.name <:+: production.body

theorem idxOf_nth (declared : grammar.nonTerminals = (List.range total).map .nth) (below : position < total) :
    grammar.nonTerminals.idxOf (.nth position) = position := by
  have distinct : grammar.nonTerminals.Nodup := by
    rw [declared]
    exact List.nodup_range.map fun _ _ same => Symbol.nth.inj same
  have inside : position < grammar.nonTerminals.length := by simpa [declared] using below
  have own : grammar.nonTerminals[position] = .nth position := by simp [declared]
  rw [← own]
  exact distinct.idxOf_getElem position inside

section Layers

variable (layered : grammar.Layered (fun c => c.isUpper = false) count) (few : grammar.nonTerminals.length ≤ 25)
include layered

theorem Layered.exists_position {production : Production} (member : production ∈ grammar.productions) :
    ∃ position < grammar.nonTerminals.length, production.head = .nth position := by
  rcases List.mem_append.mp member with sum | star
  · obtain ⟨position, below, headed, _⟩ := layered.sums production sum
    exact ⟨position, Nat.lt_of_lt_of_le below layered.few, headed⟩
  · cases layered.rounds production star with
    | further _ below _ => exact ⟨_, below, rfl⟩
    | done _ below => exact ⟨_, below, rfl⟩

include few

/-- What a production uses was declared in front of its head, or it is the head of a repetition behind
the round. -/
theorem Layered.lt_or_round {production : Production} {user used : Nat} (member : production ∈ grammar.productions)
    (headed : production.head = .nth user) (short : used < 25) (inside : Symbol.nameAt used <:+: production.body) :
    used < user ∨ used = user ∧ production ∈ grammar.starProductions ∧
      ∃ round, production.body = round ++ Symbol.nameAt used ∧ ¬ Symbol.nameAt used <:+: round := by
  rcases List.mem_append.mp member with sum | star
  · obtain ⟨position, below, own, spelt⟩ := layered.sums production sum
    obtain rfl : position = user := Symbol.nth.inj (own.symm.trans headed)
    have fewer : position ≤ 25 := Nat.le_trans (Nat.le_of_lt below) (Nat.le_trans layered.few few)
    exact Or.inl (spelt.lt_of_infix fewer short inside)
  · have fewSums : count ≤ 25 := Nat.le_trans layered.few few
    cases layered.rounds production star with
    | @further position round above below spelt =>
      obtain rfl : position = user := Symbol.nth.inj headed
      by_cases first : Symbol.nameAt used <:+: round
      · exact Or.inl (Nat.lt_of_lt_of_le (spelt.lt_of_infix fewSums short first) above)
      · have own : SpeltWith (fun c => c.isUpper = false) (position + 1) (round ++ Symbol.nameAt position) := by
          intro c here
          rcases List.mem_append.mp here with earlier | last
          · exact spelt.mono (Nat.le_succ_of_le above) c earlier
          · exact Or.inr ⟨position, Nat.lt_succ_self position, last⟩
        have atMost := own.lt_of_infix (by omega) short inside
        rcases Nat.lt_succ_iff_lt_or_eq.mp atMost with less | rfl
        · exact Or.inl less
        · exact Or.inr ⟨rfl, star, round, rfl, first⟩
    | done _ _ => exact absurd (List.eq_nil_of_infix_nil inside) (Symbol.nameAt_ne_nil used)

/-- Using goes back in the order of declaration. -/
theorem Layered.exists_of_reaches {user : Symbol} {production : Production} {last : Nat}
    (member : production ∈ grammar.productions) (headed : production.head = .nth last)
    (reaches : Relation.ReflTransGen grammar.Uses user production.head) :
    ∃ position, user = .nth position ∧ position < 25 ∧ last ≤ position := by
  induction reaches using Relation.ReflTransGen.head_induction_on with
  | refl =>
    obtain ⟨position, below, own⟩ := layered.exists_position member
    have same := Symbol.nth.inj (own.symm.trans headed)
    exact ⟨last, headed, by omega, Nat.le_refl _⟩
  | head step _ ih =>
    obtain ⟨used, rfl, short, atLeast⟩ := ih
    obtain ⟨other, listed, rfl, inside⟩ := step
    obtain ⟨position, below, own⟩ := layered.exists_position listed
    refine ⟨position, own, by omega, ?_⟩
    rcases layered.lt_or_round few listed own short inside with less | ⟨same, _⟩ <;> omega

end Layers

variable {options : DerivationOptions} {content : Text} {source : Source}

/-- Letters are declared before they are used, a repetition uses sums and itself at its end, no other
way leads back to where it began, and the start symbol stands on no right-hand side. -/
theorem stratified_of_derive (read : Source.ofText content = .ok source)
    (plain : ∀ c ∈ source.expression, c.isUpper = false) (derived : derive options content = .ok grammar)
    (few : grammar.nonTerminals.length ≤ 25) :
    (∀ c ∈ grammar.expression, c.isUpper = true → ∃ symbol ∈ grammar.nonTerminals, symbol.name = [c]) ∧
      (∀ sum ∈ grammar.sumProductions, ∀ c ∈ sum.body, c.isUpper = true →
        ∃ earlier ∈ grammar.sumProductions, earlier.head.name = [c] ∧
          grammar.nonTerminals.idxOf earlier.head < grammar.nonTerminals.idxOf sum.head) ∧
      (∀ star ∈ grammar.starProductions, star.body = [] ∨ ∃ round, star.body = round ++ star.head.name ∧
        ∀ c ∈ round, c.isUpper = true → ∃ sum ∈ grammar.sumProductions, sum.head.name = [c]) ∧
      (∀ production ∈ grammar.productions, ∀ symbol, symbol.name <:+: production.body →
        Relation.ReflTransGen grammar.Uses symbol production.head →
          symbol = production.head ∧ production ∈ grammar.starProductions ∧
            ∃ round, production.body = round ++ symbol.name ∧ ¬ symbol.name <:+: round) ∧
      ∀ production ∈ grammar.startProduction :: grammar.productions, 'S' ∉ production.body := by
  obtain ⟨count, layered⟩ := exists_layered read plain derived
  have fewSums : count ≤ 25 := Nat.le_trans layered.few few
  refine ⟨?_, ?_, ?_, ?_, ?_⟩
  · intro c member upper
    obtain ⟨position, below, named⟩ := layered.expression.exists_nameAt_eq few member upper
    refine ⟨.nth position, ?_, named⟩
    rw [layered.declared]
    exact List.mem_map_of_mem (List.mem_range.mpr below)
  · intro sum member c inside upper
    obtain ⟨position, below, headed, spelt⟩ := layered.sums sum member
    obtain ⟨earlier, less, named⟩ := spelt.exists_nameAt_eq (by omega) inside upper
    obtain ⟨production, listed, own⟩ := layered.headed.mem_iff.mpr ⟨earlier, Nat.lt_trans less below, rfl⟩
    have reach := layered.few
    refine ⟨production, listed, by rw [own]; exact named, ?_⟩
    rw [own, headed, idxOf_nth layered.declared (by omega), idxOf_nth layered.declared (by omega)]
    exact less
  · intro star member
    cases layered.rounds star member with
    | done _ _ => exact Or.inl rfl
    | @further position round _ _ spelt =>
      refine Or.inr ⟨round, rfl, fun c inside upper => ?_⟩
      obtain ⟨earlier, less, named⟩ := spelt.exists_nameAt_eq fewSums inside upper
      obtain ⟨production, listed, own⟩ := layered.headed.mem_iff.mpr ⟨earlier, less, rfl⟩
      exact ⟨production, listed, by rw [own]; exact named⟩
  · intro production member symbol inside reaches
    obtain ⟨last, _, headed⟩ := layered.exists_position member
    obtain ⟨position, rfl, short, atLeast⟩ := layered.exists_of_reaches few member headed reaches
    rcases layered.lt_or_round few member headed short inside with less | ⟨rfl, star, round⟩
    · omega
    · exact ⟨headed.symm, star, round⟩
  · intro production member start
    rcases layered.speltWith_body member 'S' start with plain | ⟨position, _, named⟩
    · exact absurd plain (by decide)
    · exact Symbol.start_notMem_nameAt position named

/-- A sum of a sum, repeated, with the inner sum once more behind it. -/
theorem stratified_of_derive_repeated_nesting :
    let grammar : Grammar :=
      { nonTerminals := [.nth 0, .nth 1, .nth 2]
        terminals := ['a']
        expression := ['C', 'A']
        sumProductions := [⟨.nth 0, ['a']⟩, ⟨.nth 0, ['b']⟩, ⟨.nth 1, ['A']⟩, ⟨.nth 1, ['c']⟩]
        starProductions := [⟨.nth 2, ['B', 'C']⟩, ⟨.nth 2, []⟩] }
    derive {} "a\n((a+b)+c)*(a+b)".toList = .ok grammar ∧ grammar.nonTerminals.length ≤ 25 ∧
      ∀ production ∈ grammar.productions, ∀ symbol, symbol.name <:+: production.body →
        Relation.ReflTransGen grammar.Uses symbol production.head →
          symbol = production.head ∧ production ∈ grammar.starProductions ∧
            ∃ round, production.body = round ++ symbol.name ∧ ¬ symbol.name <:+: round := by
  intro grammar
  have derived : derive {} "a\n((a+b)+c)*(a+b)".toList = .ok grammar := by decide +kernel
  have read : Source.ofText "a\n((a+b)+c)*(a+b)".toList = .ok ⟨['a'], "((a+b)+c)*(a+b)".toList⟩ := by decide
  have checked : "((a+b)+c)*(a+b)".toList.all (fun c => !c.isUpper) = true := by decide
  have plain : ∀ c ∈ "((a+b)+c)*(a+b)".toList, c.isUpper = false := fun c member => by
    simpa using List.all_eq_true.mp checked c member
  have few : grammar.nonTerminals.length ≤ 25 := by decide
  obtain ⟨_, _, _, recursion, _⟩ := stratified_of_derive read plain derived few
  exact ⟨derived, few, recursion⟩

end Grammar

end SumStar
