import SumStar.Proofs.HeadOrder
import SumStar.Proofs.SymbolLayers

/-! The symbols a derived grammar declares are the first ones of the supply. Nothing is declared that heads
no production: a group has an alternative, and the symbol that is passed over when no star was found
heads nothing and is not declared. -/

namespace SumStar

open Text

namespace Grammar

variable {options : DerivationOptions} {content : Text} {grammar : Grammar}

theorem exists_boundary_of_derive (derived : derive options content = .ok grammar) :
    ∃ middle last, middle ≤ last ∧ Ascending 0 middle grammar.sumProductions ∧
      Ascending middle last grammar.starProductions ∧
      (options.naming = .shared → ∀ production ∈ grammar.starProductions, production.head = .nth middle) := by
  obtain ⟨source, read⟩ := exists_source_of_derive derived
  obtain ⟨sums, reduced, rfl⟩ := exists_reduceSums_of_derive read derived
  obtain ⟨_, before⟩ := ascending_of_reduceSums reduced
  obtain ⟨on, behind⟩ := ascending_reduceStars options.naming sums.expression sums.supply
  refine ⟨sums.supply.position, _, on, before, behind, fun shared => ?_⟩
  rw [shared]
  exact (head_reduceStars_shared sums.expression sums.supply).2

theorem exists_declared_of_derive (derived : derive options content = .ok grammar) :
    ∃ count, grammar.nonTerminals = (List.range count).map .nth := by
  obtain ⟨source, read⟩ := exists_source_of_derive derived
  obtain ⟨_, layered⟩ : ∃ count, grammar.Layered (fun _ => True) count :=
    exists_layered read (fun _ _ => trivial) derived
  exact ⟨_, layered.declared⟩

theorem mem_nonTerminals_of_derive (derived : derive options content = .ok grammar) {symbol : Symbol} :
    symbol ∈ grammar.nonTerminals ↔ ∃ production ∈ grammar.productions, production.head = symbol := by
  obtain ⟨source, read⟩ := exists_source_of_derive derived
  obtain ⟨sums, _, rfl⟩ := exists_reduceSums_of_derive read derived
  exact mem_nonTerminals

/-- The declared names are the first ones, each once, and the start symbol's is none of them. They are
the heads of the productions, which come in the order of the names: sums first, none of them also a
repetition, and one head for all repetitions where they share it. -/
theorem declared_of_derive (derived : derive options content = .ok grammar) :
    (∃ count, grammar.nonTerminals.map Symbol.name = (List.range count).map Symbol.nameAt) ∧
      (grammar.nonTerminals.map Symbol.name).Nodup ∧ Symbol.start.name ∉ grammar.nonTerminals.map Symbol.name ∧
      (∀ name, name ∈ grammar.nonTerminals.map Symbol.name ↔
        ∃ production ∈ grammar.productions, production.head.name = name) ∧
      (∃ positions : List Nat, grammar.productions.map (·.head.name) = positions.map Symbol.nameAt ∧
        positions.Pairwise (· ≤ ·)) ∧
      (∀ sum ∈ grammar.sumProductions, ∀ star ∈ grammar.starProductions, sum.head.name ≠ star.head.name) ∧
      (options.naming = .shared →
        ∀ one ∈ grammar.starProductions, ∀ other ∈ grammar.starProductions, one.head.name = other.head.name) := by
  obtain ⟨count, declared⟩ := exists_declared_of_derive derived
  obtain ⟨middle, last, on, before, behind, shared⟩ := exists_boundary_of_derive derived
  have names : grammar.nonTerminals.map Symbol.name = (List.range count).map Symbol.nameAt := by
    rw [declared, List.map_map]
    rfl
  refine ⟨⟨count, names⟩, ?_, ?_, ?_, ?_, ?_, ?_⟩
  · rw [names]
    exact List.nodup_range.map fun _ _ => Symbol.nameAt_injective
  · rw [names]
    intro member
    obtain ⟨position, _, same⟩ := List.mem_map.mp member
    exact Symbol.nameAt_ne_start position same
  · intro name
    constructor
    · intro member
      obtain ⟨symbol, inside, rfl⟩ := List.mem_map.mp member
      obtain ⟨production, listed, rfl⟩ := (mem_nonTerminals_of_derive derived).mp inside
      exact ⟨production, listed, rfl⟩
    · intro ⟨production, listed, same⟩
      exact same ▸ List.mem_map_of_mem ((mem_nonTerminals_of_derive derived).mpr ⟨production, listed, rfl⟩)
  · obtain ⟨positions, heads, order, _⟩ := before.append behind (Nat.zero_le _) on
    refine ⟨positions, ?_, order⟩
    have named := congrArg (List.map Symbol.name) heads
    rw [List.map_map, List.map_map] at named
    exact named
  · exact fun sum first star second same => before.apart behind sum first star second (Symbol.name_injective same)
  · intro naming one first other second
    rw [shared naming one first, shared naming other second]

/-- Two sums, the one inside the other, and two repetitions that share the symbol behind them. -/
theorem declared_of_derive_shared_repetition :
    let grammar : Grammar :=
      { nonTerminals := [.nth 0, .nth 1, .nth 2]
        terminals := ['a', ',', 'b']
        expression := ['C', 'C']
        sumProductions := [⟨.nth 0, ['a']⟩, ⟨.nth 0, ['b']⟩, ⟨.nth 1, ['A']⟩, ⟨.nth 1, ['c']⟩]
        starProductions := [⟨.nth 2, ['B', 'C']⟩, ⟨.nth 2, []⟩, ⟨.nth 2, ['d', 'C']⟩, ⟨.nth 2, []⟩] }
    derive {} "a,b\n((a+b)+c)*d*".toList = .ok grammar ∧
      grammar.nonTerminals.map Symbol.name = [['A'], ['B'], ['C']] ∧
      ∀ one ∈ grammar.starProductions, ∀ other ∈ grammar.starProductions, one.head.name = other.head.name := by
  intro grammar
  have derived : derive {} "a,b\n((a+b)+c)*d*".toList = .ok grammar := by decide +kernel
  obtain ⟨_, _, _, _, _, _, shared⟩ := declared_of_derive derived
  exact ⟨derived, by decide, shared rfl⟩

end Grammar

end SumStar
