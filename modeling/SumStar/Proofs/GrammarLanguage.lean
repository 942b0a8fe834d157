import SumStar.Grammar.Language
import SumStar.Proofs.SymbolNames
import SumStar.Proofs.Valuations

/-! In a grammar whose symbols are all named by one letter, a name is found in a text only where
the symbol stands. What a text generates is then put together from what its characters generate,
and this reads the productions of the grammar. -/

namespace SumStar

namespace Symbol

/-- The letter that the name of a numbered symbol begins with. -/
def letterAt (position : Nat) : Char :=
  letters.getD (position % letters.length) 'A'

theorem nameAt_of_lt {position : Nat} (first : position < 25) : nameAt position = [letterAt position] := by
  have round : position / letters.length = 0 := Nat.div_eq_of_lt first
  rw [nameAt, round]
  rfl

theorem letterAt_injective {first second : Nat} (one : first < 25) (other : second < 25)
    (same : letterAt first = letterAt second) : first = second := by
  apply nameAt_injective
  rw [nameAt_of_lt one, nameAt_of_lt other, same]

theorem letterAt_mod (position : Nat) : letterAt (position % 25) = letterAt position := by
  have again : position % 25 % letters.length = position % letters.length := Nat.mod_mod position 25
  rw [letterAt, letterAt, again]

theorem eq_letterAt_of_mem_nameAt {position : Nat} {c : Char} (member : c ∈ nameAt position)
    (upper : c.isUpper = true) : c = letterAt position := by
  rcases List.mem_cons.mp member with same | digit
  · exact same
  · exact absurd (isDigit_of_mem_roundSuffix digit) (ne_true_of_eq_false (not_isDigit_of_isUpper upper))

theorem isUpper_letterAt (position : Nat) : (letterAt position).isUpper = true :=
  isUpper_of_mem_letters (letter_mem position)

end Symbol

namespace Grammar

variable {grammar : Grammar} {text : Text}

/-- The symbols are the heads of the productions and belong to the first round of names. -/
structure IsShort (grammar : Grammar) : Prop where
  declared : ∀ symbol, symbol ∈ grammar.nonTerminals ↔
    ∃ production ∈ grammar.productions, production.head = symbol
  first : ∀ symbol ∈ grammar.nonTerminals, ∃ position < 25, symbol = .nth position

/-- What a text generates, read character by character. -/
def valuation (grammar : Grammar) : Valuation := fun c =>
  {text | Derives grammar [c] text ∧ IsTerminal grammar text}

theorem IsShort.name_eq (short : grammar.IsShort) {symbol : Symbol} (member : symbol ∈ grammar.nonTerminals) :
    ∃ c, symbol.name = [c] ∧ c.isUpper = true := by
  obtain ⟨position, below, rfl⟩ := short.first symbol member
  exact ⟨_, Symbol.nameAt_of_lt below, Symbol.isUpper_letterAt position⟩

theorem IsShort.name_injective (short : grammar.IsShort) {first second : Symbol}
    (one : first ∈ grammar.nonTerminals) (other : second ∈ grammar.nonTerminals)
    (same : first.name = second.name) : first = second := by
  obtain ⟨_, _, rfl⟩ := short.first first one
  obtain ⟨_, _, rfl⟩ := short.first second other
  exact congrArg Symbol.nth (Symbol.nameAt_injective same)

theorem IsShort.head_mem (short : grammar.IsShort) {production : Production}
    (member : production ∈ grammar.productions) : production.head ∈ grammar.nonTerminals :=
  (short.declared _).mpr ⟨production, member, rfl⟩

theorem isTerminal_nil (short : grammar.IsShort) : IsTerminal grammar [] := by
  intro symbol member inside
  obtain ⟨c, named, _⟩ := short.name_eq member
  rw [named] at inside
  cases List.infix_nil.mp inside

theorem IsTerminal.append (short : grammar.IsShort) {first second : Text} (one : IsTerminal grammar first)
    (other : IsTerminal grammar second) : IsTerminal grammar (first ++ second) := by
  intro symbol member inside
  obtain ⟨c, named, _⟩ := short.name_eq member
  rw [named, List.singleton_infix_iff] at inside
  rcases List.mem_append.mp inside with here | there
  · exact one symbol member (named ▸ (List.singleton_infix_iff _ _).mpr here)
  · exact other symbol member (named ▸ (List.singleton_infix_iff _ _).mpr there)

theorem derives_of_mem_spell (short : grammar.IsShort) {source : Text}
    (spelled : text ∈ grammar.valuation.spell source) :
    Derives grammar source text ∧ IsTerminal grammar text := by
  induction source generalizing text with
  | nil =>
    rw [Valuation.spell_nil, Language.mem_one] at spelled
    rw [spelled]
    exact ⟨.refl [], isTerminal_nil short⟩
  | cons c source ih =>
    rw [Valuation.spell_cons, Language.mem_mul] at spelled
    obtain ⟨first, ⟨here, terminal⟩, second, later, rfl⟩ := spelled
    obtain ⟨there, rest⟩ := ih later
    refine ⟨?_, terminal.append short rest⟩
    have front : Derives grammar (c :: source) (first ++ source) := by
      simpa using here.within [] source
    have back : Derives grammar (first ++ source) (first ++ second) := by
      simpa using there.within first []
    exact front.trans back

theorem mem_spell_body (short : grammar.IsShort) {production : Production}
    (member : production ∈ grammar.productions) (spelled : text ∈ grammar.valuation.spell production.body) :
    text ∈ grammar.valuation.spell production.head.name := by
  obtain ⟨c, named, _⟩ := short.name_eq (short.head_mem member)
  obtain ⟨derivation, terminal⟩ := derives_of_mem_spell short spelled
  rw [named, Valuation.spell_singleton]
  have taken : Step grammar [c] production.body := by
    simpa [named] using Step.exchange [] [] member
  exact ⟨.step taken derivation, terminal⟩

theorem mem_spell_of_derives (short : grammar.IsShort) {source : Text} (derivation : Derives grammar source text)
    (terminal : IsTerminal grammar text) : text ∈ grammar.valuation.spell source := by
  induction derivation with
  | refl source =>
    have each : ∀ c ∈ source, [c] ∈ grammar.valuation c := fun c member =>
      ⟨.refl [c], fun symbol declared inside =>
        terminal symbol declared (inside.trans ((List.singleton_infix_iff _ _).mpr member))⟩
    clear terminal
    induction source with
    | nil => exact Language.nil_mem_one
    | cons c source ih =>
      rw [Valuation.spell_cons]
      exact Language.append_mem_mul (each c (by simp)) (ih fun d member => each d (by simp [member]))
  | step taken _ ih =>
    cases taken with
    | exchange before after member =>
      have spelled := ih terminal
      rw [Valuation.spell_append, Valuation.spell_append, Language.mem_mul] at spelled ⊢
      obtain ⟨front, inner, last, outer, same⟩ := spelled
      rw [Language.mem_mul] at inner
      obtain ⟨first, one, second, body, rfl⟩ := inner
      exact ⟨first ++ second, Language.append_mem_mul one (mem_spell_body short member body), last, outer, same⟩

theorem generates_iff (short : grammar.IsShort) :
    Generates grammar text ↔ text ∈ grammar.valuation.spell grammar.expression :=
  ⟨fun ⟨derivation, terminal⟩ => mem_spell_of_derives short derivation terminal, derives_of_mem_spell short⟩

/-- A single character is left by an exchange only if it is the name of the head. -/
theorem Step.of_singleton (short : grammar.IsShort) {c : Char} (taken : Step grammar [c] text) :
    ∃ production ∈ grammar.productions, production.head.name = [c] ∧ production.body = text := by
  generalize same : [c] = source at taken
  cases taken with
  | @exchange before after production member =>
    obtain ⟨d, named, _⟩ := short.name_eq (short.head_mem member)
    rw [named, List.append_assoc] at same
    cases before with
    | nil =>
      obtain ⟨rfl, empty⟩ := List.cons.inj same
      obtain rfl : after = [] := empty.symm
      exact ⟨production, member, by simp, by simp⟩
    | cons _ before => simp at same

/-- A lower-case letter is no symbol, so nothing is left to exchange in it. -/
theorem valuation_of_isLower (short : grammar.IsShort) {c : Char} (lower : c.isLower = true) :
    grammar.valuation c = {[c]} := by
  have other : ∀ symbol ∈ grammar.nonTerminals, symbol.name ≠ [c] := by
    intro symbol member named
    obtain ⟨d, same, upper⟩ := short.name_eq member
    rw [named] at same
    rw [← (List.cons.inj same).1, not_isUpper_of_isLower lower] at upper
    cases upper
  ext text
  constructor
  · intro ⟨derivation, _⟩
    cases derivation with
    | refl => rfl
    | step taken _ =>
      obtain ⟨production, member, named, _⟩ := taken.of_singleton short
      exact False.elim (other _ (short.head_mem member) named)
  · intro same
    obtain rfl : text = [c] := same
    refine ⟨.refl [c], ?_⟩
    intro symbol member inside
    obtain ⟨d, named, _⟩ := short.name_eq member
    rw [named, List.singleton_infix_iff, List.mem_singleton] at inside
    exact other symbol member (inside ▸ named)

/-- A symbol generates what its productions spell. -/
theorem mem_spell_head_iff (short : grammar.IsShort) {production : Production}
    (member : production ∈ grammar.productions) :
    text ∈ grammar.valuation.spell production.head.name ↔
      ∃ other ∈ grammar.productions, other.head = production.head ∧ text ∈ grammar.valuation.spell other.body := by
  constructor
  · intro spelled
    obtain ⟨c, named, _⟩ := short.name_eq (short.head_mem member)
    rw [named, Valuation.spell_singleton] at spelled
    obtain ⟨derivation, terminal⟩ := spelled
    cases derivation with
    | refl => exact False.elim (terminal _ (short.head_mem member) (named ▸ List.infix_refl _))
    | step taken rest =>
      obtain ⟨other, inside, same, rfl⟩ := taken.of_singleton short
      refine ⟨other, inside, ?_, mem_spell_of_derives short rest terminal⟩
      exact short.name_injective (short.head_mem inside) (short.head_mem member) (same.trans named.symm)
  · intro ⟨other, inside, same, spelled⟩
    rw [← same]
    exact mem_spell_body short inside spelled

theorem reads_valuation (short : grammar.IsShort) : grammar.valuation.Reads grammar.productions where
  letter := fun _ lower => valuation_of_isLower short lower
  head := fun _ member _ => mem_spell_head_iff short member

end Grammar
end SumStar
