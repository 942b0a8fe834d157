import SumStar.Proofs.DerivationRuns
import SumStar.Proofs.Numbering
import SumStar.Proofs.StarGroups
import SumStar.Proofs.SumAlternatives

/-! The layers of a derived grammar. Symbols enter the expression one after the other, so the body
of a production holds symbols in front of its head only, except for the one at the end of a
repetition. The declared symbols are the first ones of the supply, in their order. -/

namespace SumStar

open Text

variable {known : Char → Prop} {count larger : Nat} {text group target replacement : Text} {c : Char}

/-- The characters are known from the start or belong to the names of the first symbols. -/
def Text.SpeltWith (known : Char → Prop) (count : Nat) (text : Text) : Prop :=
  ∀ c ∈ text, known c ∨ ∃ position < count, c ∈ Symbol.nameAt position

namespace Text.SpeltWith

theorem mono (spelt : SpeltWith known count text) (more : count ≤ larger) : SpeltWith known larger text := by
  intro c member
  rcases spelt c member with old | ⟨position, below, named⟩
  · exact Or.inl old
  · exact Or.inr ⟨position, Nat.lt_of_lt_of_le below more, named⟩

theorem of_subset (spelt : SpeltWith known count text) (inside : ∀ c ∈ group, c ∈ text) : SpeltWith known count group :=
  fun c member => spelt c (inside c member)

theorem nameAt {position : Nat} (below : position < count) : SpeltWith known count (Symbol.nameAt position) :=
  fun _ member => Or.inr ⟨position, below, member⟩

theorem replaceAll (spelt : SpeltWith known count text) (present : target ≠ [])
    (new : SpeltWith known count replacement) : SpeltWith known count (replaceAll target replacement text) := by
  intro c member
  rcases mem_of_mem_replaceAll present member with inserted | old
  · exact new c inserted
  · exact spelt c old

end Text.SpeltWith

theorem StarGroup.mem_of_mem_body (member : c ∈ StarGroup.body group) : c ∈ group :=
  (List.mem_filter.mp ((List.takeWhile_prefix _).subset member)).1

/-- The heads are the first symbols, each listed once and in order. -/
def Listed (productions : List Production) (count : Nat) : Prop :=
  (productions.map Production.head).eraseDups = (List.range count).map .nth

namespace Listed

variable {productions : List Production} {bodies : List Text}

theorem nil : Listed [] 0 := rfl

theorem mem_iff (listed : Listed productions count) {symbol : Symbol} :
    (∃ production ∈ productions, production.head = symbol) ↔ ∃ position < count, symbol = .nth position := by
  have member : symbol ∈ (productions.map Production.head).eraseDups ↔ symbol ∈ (List.range count).map .nth := by
    rw [listed]
  simpa [eq_comm] using member

theorem fresh (listed : Listed productions count) : ∀ production ∈ productions, production.head ≠ .nth count := by
  intro production member same
  obtain ⟨position, below, named⟩ := listed.mem_iff.mp ⟨production, member, same⟩
  exact Nat.ne_of_gt below (Symbol.nth.inj named)

private theorem eraseDups_heads (symbol : Symbol) (some : bodies ≠ []) :
    ((bodies.map (Production.mk symbol)).map Production.head).eraseDups = [symbol] := by
  obtain ⟨first, others, rfl⟩ := List.exists_cons_of_ne_nil some
  rw [List.map_cons, List.map_cons, List.eraseDups_cons]
  have none : ((others.map (Production.mk symbol)).map Production.head).filter (fun other => !other == symbol) = [] := by
    simp [List.filter_eq_nil_iff]
  rw [none]
  rfl

/-- Productions of the next symbol. -/
theorem append (listed : Listed productions count) (some : bodies ≠ []) :
    Listed (productions ++ bodies.map (Production.mk (.nth count))) (count + 1) := by
  have absent : Symbol.nth count ∉ productions.map Production.head := by
    intro member
    obtain ⟨production, inside, same⟩ := List.mem_map.mp member
    exact listed.fresh production inside same
  have kept : ((bodies.map (Production.mk (.nth count))).map Production.head).removeAll
      (productions.map Production.head) = (bodies.map (Production.mk (.nth count))).map Production.head := by
    apply List.filter_eq_self.mpr
    intro symbol member
    obtain ⟨production, inside, rfl⟩ := List.mem_map.mp member
    obtain ⟨body, _, rfl⟩ := List.mem_map.mp inside
    simpa using absent
  rw [Listed, List.map_append, List.eraseDups_append, kept, eraseDups_heads _ some, listed, List.range_succ,
    List.map_append]
  rfl

/-- Further productions of a listed symbol. -/
theorem append_again (listed : Listed productions count) {position : Nat} (below : position < count) :
    Listed (productions ++ bodies.map (Production.mk (.nth position))) count := by
  have present : Symbol.nth position ∈ productions.map Production.head :=
    List.mem_map.mpr (listed.mem_iff.mpr ⟨position, below, rfl⟩)
  have dropped : ((bodies.map (Production.mk (.nth position))).map Production.head).removeAll
      (productions.map Production.head) = [] := by
    apply List.filter_eq_nil_iff.mpr
    intro symbol member
    obtain ⟨production, inside, rfl⟩ := List.mem_map.mp member
    obtain ⟨body, _, rfl⟩ := List.mem_map.mp inside
    simpa using present
  rw [Listed, List.map_append, List.eraseDups_append, dropped, List.eraseDups_nil, List.append_nil]
  exact listed

end Listed

namespace SumProgress

variable {memory : GroupMemory} {progress last : SumProgress} {scans : Nat}

structure Layered (known : Char → Prop) (progress : SumProgress) : Prop where
  remembers : progress.Remembers
  listed : Listed progress.productions progress.supply.position
  expression : SpeltWith known progress.supply.position progress.expression
  bodies : ∀ production ∈ progress.productions, ∃ position < progress.supply.position,
    production.head = .nth position ∧ SpeltWith known position production.body

/-- What a group has that is found in a layered expression. -/
structure Suits (known : Char → Prop) (progress : SumProgress) (group : Text) : Prop where
  present : group ≠ []
  some : SumGroup.alternatives group ≠ []
  spelt : SpeltWith known progress.supply.position group

theorem layered_initial {expression : Text} (source : ∀ c ∈ expression, known c) :
    (initial expression {}).Layered known where
  remembers := remembers_initial expression {}
  listed := .nil
  expression := fun c member => Or.inl (source c member)
  bodies := by simp [initial]

theorem Layered.suits (layered : progress.Layered known) : ∀ group ∈ progress.found, progress.Suits known group := by
  intro group member
  have found := List.mem_eraseDups.mp member
  obtain ⟨rest, stands⟩ := SumGroup.exists_piece_of_mem_findAll found
  refine ⟨SumGroup.ne_nil_of_mem_findAll found, SumGroup.alternatives_ne_nil stands, ?_⟩
  exact layered.expression.of_subset fun c => (SumGroup.infix_of_mem_findAll found).subset (a := c)

theorem Layered.introduce (layered : progress.Layered known) (suits : progress.Suits known group)
    (remembers : (progress.introduce memory group).Remembers) : (progress.introduce memory group).Layered known := by
  have fresh : progress.supply.position < progress.supply.position + 1 := Nat.lt_succ_self _
  refine ⟨remembers, layered.listed.append suits.some, ?_, ?_⟩
  · exact (layered.expression.mono (Nat.le_succ _)).replaceAll suits.present (.nameAt fresh)
  · intro production member
    rcases List.mem_append.mp member with old | new
    · obtain ⟨position, below, headed, spelt⟩ := layered.bodies production old
      exact ⟨position, Nat.lt_succ_of_lt below, headed, spelt⟩
    · obtain ⟨body, inside, rfl⟩ := List.mem_map.mp new
      exact ⟨progress.supply.position, fresh, rfl,
        suits.spelt.of_subset fun c => SumGroup.mem_of_mem_alternatives inside⟩

theorem Layered.visit (layered : progress.Layered known) (suits : progress.Suits known group) :
    (progress.visit memory group).Layered known := by
  have remembers : (progress.visit memory group).Remembers := layered.remembers.visit
  rcases visit_cases memory progress group with same | ⟨symbol, remembered, same⟩ | same
  · rw [same]
    exact layered
  · rw [same] at remembers ⊢
    obtain ⟨position, below, named⟩ := layered.remembers _ (mem_of_lookup remembered)
    obtain rfl : symbol = .nth position := named
    exact ⟨remembers, layered.listed, layered.expression.replaceAll suits.present (.nameAt below), layered.bodies⟩
  · rw [same] at remembers ⊢
    exact layered.introduce suits remembers

theorem Settles.layered (settles : Settles memory scans progress last) (layered : progress.Layered known) :
    last.Layered known := by
  apply settles.invariant _ layered fun progress here => here.suits
  intro progress group here suits
  refine ⟨here.visit suits, fun other later => ⟨later.present, later.some, ?_⟩⟩
  exact later.spelt.mono position_visit_le

end SumProgress

/-- A production of a repetition: a further round of characters from the sum phase, or the end. -/
inductive Production.IsRound (known : Char → Prop) (count total : Nat) : Production → Prop where
  | further {position : Nat} {round : Text} : count ≤ position → position < total → SpeltWith known count round →
      IsRound known count total ⟨.nth position, round ++ Symbol.nameAt position⟩
  | done {position : Nat} : count ≤ position → position < total → IsRound known count total ⟨.nth position, []⟩

theorem Production.IsRound.mono {total wider : Nat} {production : Production}
    (round : production.IsRound known count total) (more : total ≤ wider) : production.IsRound known count wider := by
  cases round with
  | further above below spelt => exact .further above (Nat.lt_of_lt_of_le below more) spelt
  | done above below => exact .done above (Nat.lt_of_lt_of_le below more)

namespace Reduction

variable {naming : StarNaming} {base : List Production} {total : Nat} {reduction : Reduction}

/-- The next symbol of the star phase is fresh, or it is the last one listed and shared. -/
structure Layered (known : Char → Prop) (naming : StarNaming) (base : List Production) (count total : Nat)
    (reduction : Reduction) : Prop where
  listed : Listed (base ++ reduction.productions) total
  next : reduction.supply.position = total ∨ naming = .shared ∧ reduction.supply.position + 1 = total
  later : count ≤ reduction.supply.position
  expression : SpeltWith known total reduction.expression
  rounds : ∀ production ∈ reduction.productions, production.IsRound known count total

theorem Layered.rounds_visitStar (layered : reduction.Layered known naming base count total)
    (spelt : SpeltWith known count group) (wider : Nat) (more : total ≤ wider)
    (below : reduction.supply.position < wider) :
    ∀ production ∈ (reduction.visitStar naming group).productions, production.IsRound known count wider := by
  intro production member
  rcases List.mem_append.mp member with old | new
  · exact (layered.rounds production old).mono more
  · rcases List.mem_cons.mp new with rfl | last
    · exact .further layered.later below (spelt.of_subset fun c => StarGroup.mem_of_mem_body)
    · obtain rfl := List.mem_singleton.mp last
      exact .done layered.later below

theorem Layered.visitStar (layered : reduction.Layered known naming base count total) (present : group ≠ [])
    (spelt : SpeltWith known count group) :
    ∃ wider, (reduction.visitStar naming group).Layered known naming base count wider := by
  have rounds := layered.rounds_visitStar spelt
  obtain ⟨listed, next, later, expression, _⟩ := layered
  have grown : base ++ (reduction.visitStar naming group).productions = base ++ reduction.productions ++
      [StarGroup.body group ++ reduction.supply.peek.name, []].map (Production.mk reduction.supply.peek) := by
    rw [List.append_assoc]
    rfl
  rcases next with fresh | ⟨shared, last⟩
  · have below : reduction.supply.position < total + 1 := by omega
    refine ⟨total + 1, ?_, ?_, ?_, ?_, rounds (total + 1) (Nat.le_succ _) below⟩
    · rw [grown, Supply.peek, fresh]
      exact listed.append (List.cons_ne_nil _ _)
    · cases naming with
      | shared => exact Or.inr ⟨rfl, congrArg (· + 1) fresh⟩
      | separate => exact Or.inl (congrArg (· + 1) fresh)
    · cases naming with
      | shared => exact later
      | separate => exact Nat.le_succ_of_le later
    · exact (expression.mono (Nat.le_succ _)).replaceAll present (.nameAt below)
  · have below : reduction.supply.position < total := by omega
    subst shared
    refine ⟨total, ?_, Or.inr ⟨rfl, last⟩, later, ?_, rounds total (Nat.le_refl _) below⟩
    · rw [grown]
      exact listed.append_again below
    · exact expression.replaceAll present (.nameAt below)

end Reduction

namespace Grammar

variable {options : DerivationOptions} {content : Text} {source : Source} {grammar : Grammar}

/-- The first symbols head sums, each over the symbols in front of it; the others head repetitions
over symbols of sums. -/
structure Layered (known : Char → Prop) (count : Nat) (grammar : Grammar) : Prop where
  declared : grammar.nonTerminals = (List.range grammar.nonTerminals.length).map .nth
  few : count ≤ grammar.nonTerminals.length
  headed : Listed grammar.sumProductions count
  sums : ∀ production ∈ grammar.sumProductions, ∃ position < count,
    production.head = .nth position ∧ SpeltWith known position production.body
  rounds : ∀ production ∈ grammar.starProductions, production.IsRound known count grammar.nonTerminals.length
  expression : SpeltWith known grammar.nonTerminals.length grammar.expression

/-- A derived grammar is layered over the characters of its source. -/
theorem exists_layered (read : Source.ofText content = .ok source) (plain : ∀ c ∈ source.expression, known c)
    (derived : derive options content = .ok grammar) : ∃ count, grammar.Layered known count := by
  obtain ⟨sums, reduced, rfl⟩ := exists_reduceSums_of_derive read derived
  obtain ⟨scans, last, settles, rfl⟩ := exists_settles_of_reduceSums reduced
  have first := settles.layered (SumProgress.layered_initial plain)
  have start : Reduction.Layered known options.naming last.productions last.supply.position last.supply.position
      ⟨last.expression, last.supply, []⟩ :=
    ⟨by rw [List.append_nil]; exact first.listed, Or.inl rfl, Nat.le_refl _, first.expression, by simp⟩
  have visited : ∀ reduction : Reduction,
      (∃ total, reduction.Layered known options.naming last.productions last.supply.position total) →
      ∀ group ∈ StarGroup.findAll last.expression,
        ∃ total, (reduction.visitStar options.naming group).Layered known options.naming last.productions
          last.supply.position total := by
    intro reduction ⟨total, layered⟩ group member
    obtain ⟨word, stands⟩ := StarGroup.exists_piece_of_mem_findAll member
    exact layered.visitStar stands.ne_nil
      (first.expression.of_subset fun c => (StarGroup.infix_of_mem_findAll member).subset (a := c))
  obtain ⟨scanned, ⟨total, layered⟩, expression, productions, _⟩ := reduceStars_invariant _ ⟨_, start⟩ visited
  have declared : (assemble source.terminals ⟨last.expression, last.supply, last.productions⟩
      (reduceStars options.naming last.expression last.supply)).nonTerminals = (List.range total).map .nth := by
    rw [← layered.listed, assemble, productions]
  have length := congrArg List.length declared
  rw [List.length_map, List.length_range] at length
  have later := layered.later
  refine ⟨last.supply.position, ?_, ?_, first.listed, first.bodies, ?_, ?_⟩
  · rw [length, declared]
  · rw [length]
    rcases layered.next with fresh | ⟨_, last⟩ <;> omega
  · rw [length]
    change ∀ production ∈ (reduceStars options.naming last.expression last.supply).productions, _
    rw [productions]
    exact layered.rounds
  · rw [length]
    change SpeltWith known total (reduceStars options.naming last.expression last.supply).expression
    rw [expression]
    exact layered.expression

end Grammar

end SumStar
