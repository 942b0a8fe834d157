import SumStar.Matching.Acceptance
import SumStar.Proofs.FlatExpressions
import SumStar.Proofs.MatchingLanguage
import SumStar.Proofs.PatternDescent
import SumStar.Proofs.SymbolNames

/-! Flat sources: repeated sums, then letters and sums, over lowercase letters. As an expression
such a source is flat; flattened into a pattern it is read as the tree one expects, whose language
is what the flat expression stands for when every letter stands for itself. -/

namespace SumStar

open Computability Text

variable {words : List Text} {word : Text} {c : Char}

/-- What stands behind the repeated sums: a letter or a sum of at least two words. -/
inductive FlatItem where
  | letter (c : Char)
  | sum (words : List Text)

namespace FlatItem

def text : FlatItem → Text
  | letter c => [c]
  | sum words => sumText words

def IsValid : FlatItem → Prop
  | letter c => c.isLower = true
  | sum words => IsSum (fun c => c.isLower = true) words ∧ 2 ≤ words.length

/-- Letters belong to the word behind them. -/
def attach (tail : Flat.Tail) : FlatItem → Flat.Tail
  | letter c => tail.prepend [c]
  | sum words => .sum [] words tail

theorem text_attach (item : FlatItem) (tail : Flat.Tail) : (item.attach tail).text = item.text ++ tail.text := by
  cases item with
  | letter c => exact Flat.Tail.text_prepend [c] tail
  | sum words => rfl

theorem over_attach {item : FlatItem} (valid : item.IsValid) {tail : Flat.Tail}
    (composed : tail.Over fun c => c.isLower = true) : (item.attach tail).Over fun c => c.isLower = true := by
  cases item with
  | letter c => exact composed.prepend fun d member => List.mem_singleton.mp member ▸ valid
  | sum words => exact ⟨by simp, valid.1, valid.2, composed⟩

end FlatItem

/-- Repeated sums in front of letters and sums. -/
structure FlatSource where
  starred : List (List Text)
  items : List FlatItem

/-- Words are not empty and made of lowercase letters; a sum that is not repeated has two of them. -/
structure FlatSource.IsValid (source : FlatSource) : Prop where
  starred : ∀ words ∈ source.starred, IsSum (fun c => c.isLower = true) words
  items : ∀ item ∈ source.items, item.IsValid

namespace FlatSource

def text (source : FlatSource) : Text :=
  (source.starred.flatMap fun words => sumText words ++ ['*']) ++ source.items.flatMap FlatItem.text

def flat (source : FlatSource) : Flat :=
  ⟨source.starred.map .sum, source.items.foldr (fun item tail => item.attach tail) (.last [])⟩

theorem text_flat (source : FlatSource) : source.flat.text = source.text := by
  obtain ⟨starred, items⟩ := source
  have behind : (items.foldr (fun item tail => item.attach tail) (Flat.Tail.last [])).text =
      items.flatMap FlatItem.text := by
    induction items with
    | nil => rfl
    | cons item items ih => rw [List.foldr_cons, FlatItem.text_attach, ih, List.flatMap_cons]
  simp only [Flat.text, flat, text, List.flatMap_map, behind]
  rfl

theorem IsValid.composed {source : FlatSource} (valid : source.IsValid) : source.flat.Over fun c => c.isLower = true := by
  obtain ⟨starred, items⟩ := source
  obtain ⟨sums, behind⟩ := valid
  constructor
  · intro piece member
    obtain ⟨words, inside, rfl⟩ := List.mem_map.mp member
    exact sums words inside
  · induction items with
    | nil => exact fun c member => absurd member List.not_mem_nil
    | cons item items ih =>
      apply FlatItem.over_attach (behind item (by simp))
      exact ih sums fun other member => behind other (by simp [member])

end FlatSource

section Patterns

/-- A word as a term. -/
def Term.ofWord (word : Text) : Term :=
  .ofFactors (word.map fun c => .atom (.char c))

/-- Words as alternatives. -/
def Pattern.ofWords : List Text → Pattern
  | [] => .term .empty
  | [last] => .term (.ofWord last)
  | first :: next :: rest => .alternation (.ofWord first) (Pattern.ofWords (next :: rest))

def FlatItem.factor : FlatItem → Factor
  | letter c => .atom (.char c)
  | sum words => .atom (.parentheses (.ofWords words))

def FlatSource.pattern (source : FlatSource) : Pattern :=
  .term (.ofFactors ((source.starred.map fun words => .zeroOrMore (.parentheses (.ofWords words))) ++
    source.items.map FlatItem.factor))

theorem Term.language_ofFactors : ∀ factors : List Factor,
    (ofFactors factors).language = (factors.map Factor.language).prod
  | [] => rfl
  | [last] => by simp [ofFactors, language]
  | first :: next :: rest => by
    rw [ofFactors, language, language_ofFactors (next :: rest)]
    rfl

theorem Term.language_ofWord (word : Text) : (ofWord word).language = Valuation.plain.spell word := by
  rw [ofWord, language_ofFactors, List.map_map]
  rfl

theorem Pattern.language_ofWords (some : words ≠ []) : (ofWords words).language = Valuation.plain.sum words := by
  induction words with
  | nil => exact False.elim (some rfl)
  | cons first words ih =>
    cases words with
    | nil => simp [ofWords, language, Term.language_ofWord]
    | cons next rest =>
      rw [ofWords, language, Term.language_ofWord, ih (List.cons_ne_nil next rest), Valuation.sum_cons first]

theorem flatten_of_isLower (lower : ∀ c ∈ word, c.isLower = true) : flatten word = word := by
  have each : ∀ c ∈ word, (if c = '+' then '|' else c) = id c := by
    intro c member
    apply if_neg
    intro plus
    rw [plus] at member
    exact absurd (lower '+' member) (by decide)
  rw [flatten, List.map_congr_left each, List.map_id]

theorem Term.print_ofWord (word : Text) : (ofWord word).print = word := by
  rw [ofWord, print_ofFactors, List.flatMap_map]
  exact List.flatMap_singleton' word

theorem Pattern.print_ofWords (composed : ∀ word ∈ words, ∀ c ∈ word, c.isLower = true) :
    (ofWords words).print = flatten (['+'].intercalate words) := by
  induction words with
  | nil => rfl
  | cons first words ih =>
    have own := flatten_of_isLower (composed first (by simp))
    cases words with
    | nil => rw [ofWords, print, Term.print_ofWord, List.intercalate_singleton, own]
    | cons next rest =>
      have later := ih fun word member => composed word (List.mem_cons_of_mem first member)
      rw [ofWords, print, Term.print_ofWord, later, List.intercalate_cons_cons, flatten_append, flatten_append, own]
      simp [flatten]

theorem Atom.print_parentheses (composed : ∀ word ∈ words, ∀ c ∈ word, c.isLower = true) :
    (parentheses (.ofWords words)).print = flatten (sumText words) := by
  rw [print, Pattern.print_ofWords composed, sumText]
  simp [flatten]

theorem isLiteral_of_isLower (lower : c.isLower = true) : Token.isLiteral c = true := by
  obtain ⟨above, below⟩ := toNat_of_isLower lower
  apply Token.isLiteral_iff.mpr
  constructor
  · simp only [List.mem_cons, List.not_mem_nil, or_false, not_or]
    refine ⟨?_, ?_, ?_, ?_⟩ <;> (intro same; rw [same] at lower; exact absurd lower (by decide))
  · have visible : isControl c = false := by
      simp [isControl]
      omega
    rw [isRefused, visible, Bool.false_and]

theorem Term.isCanonical_ofWord (lower : ∀ c ∈ word, c.isLower = true) : (ofWord word).isCanonical = true := by
  apply isCanonical_ofFactors
  intro factor member
  obtain ⟨c, inside, rfl⟩ := List.mem_map.mp member
  exact isLiteral_of_isLower (lower c inside)

theorem Pattern.isCanonical_ofWords (composed : ∀ word ∈ words, ∀ c ∈ word, c.isLower = true) :
    (ofWords words).isCanonical = true := by
  induction words with
  | nil => rfl
  | cons first words ih =>
    have own := Term.isCanonical_ofWord (composed first (by simp))
    cases words with
    | nil => exact own
    | cons next rest =>
      have later := ih fun word member => composed word (List.mem_cons_of_mem first member)
      rw [ofWords, isCanonical, own, later]
      rfl

namespace FlatSource

variable {source : FlatSource}

theorem isCanonical_pattern (valid : source.IsValid) : source.pattern.isCanonical = true := by
  apply Term.isCanonical_ofFactors
  intro factor member
  rcases List.mem_append.mp member with repeated | behind
  · obtain ⟨words, inside, rfl⟩ := List.mem_map.mp repeated
    exact Pattern.isCanonical_ofWords (valid.starred words inside).composed
  · obtain ⟨item, inside, rfl⟩ := List.mem_map.mp behind
    have own := valid.items item inside
    cases item with
    | letter c => exact isLiteral_of_isLower own
    | sum words => exact Pattern.isCanonical_ofWords own.1.composed

theorem print_pattern (valid : source.IsValid) : source.pattern.print = flatten source.text := by
  have repeated : ∀ words ∈ source.starred, (Factor.zeroOrMore (.parentheses (.ofWords words))).print =
      flatten (sumText words ++ ['*']) := by
    intro words member
    rw [Factor.print, Atom.print_parentheses (valid.starred words member).composed, flatten_append]
    rfl
  have behind : ∀ item ∈ source.items, item.factor.print = flatten item.text := by
    intro item member
    have own := valid.items item member
    cases item with
    | letter c => exact (flatten_of_isLower fun d inside => List.mem_singleton.mp inside ▸ own).symm
    | sum words => exact Atom.print_parentheses own.1.composed
  rw [pattern, Pattern.print, Term.print_ofFactors, List.flatMap_append, List.flatMap_map, List.flatMap_map,
    text, flatten_append, flatten, flatten, List.map_flatMap, List.map_flatMap]
  exact congrArg₂ (· ++ ·) (List.flatMap_congr repeated) (List.flatMap_congr behind)

theorem meaning_attach {item : FlatItem} (valid : item.IsValid) (tail : Flat.Tail) :
    (item.attach tail).meaning .plain = item.factor.language * tail.meaning .plain := by
  cases item with
  | letter c =>
    rw [FlatItem.attach, Flat.Tail.meaning_prepend, Valuation.spell_singleton]
    rfl
  | sum words =>
    have alternatives : (Pattern.ofWords words).language = Valuation.plain.sum words :=
      Pattern.language_ofWords valid.1.any
    rw [FlatItem.attach, Flat.Tail.meaning, Valuation.spell_nil, one_mul, ← alternatives]
    rfl

/-- The pattern takes what the expression stands for. -/
theorem language_pattern (valid : source.IsValid) : source.pattern.language = source.flat.meaning .plain := by
  obtain ⟨starred, items⟩ := source
  obtain ⟨sums, behind⟩ := valid
  have repeated : ∀ words ∈ starred, (Factor.zeroOrMore (.parentheses (.ofWords words))).language =
      (Flat.Starred.sum words).meaning .plain := fun words member =>
    congrArg KStar.kstar (Pattern.language_ofWords (sums words member).any)
  have rest : ((items.map FlatItem.factor).map Factor.language).prod =
      (items.foldr (fun item tail => item.attach tail) (Flat.Tail.last [])).meaning .plain := by
    clear repeated sums
    induction items with
    | nil => rfl
    | cons item items ih =>
      rw [List.foldr_cons, meaning_attach (behind item (by simp)), ← ih fun other member => behind other (by simp [member])]
      simp
  rw [pattern, Pattern.language, Term.language_ofFactors, List.map_append, List.prod_append, rest, List.map_map,
    Flat.meaning, flat, List.map_map]
  exact congrArg (fun pieces : List (Language Char) => pieces.prod * _) (List.map_congr_left repeated)

theorem accepts_iff (valid : source.IsValid) (candidate : Text) :
    accepts source.text candidate = .ok true ↔ candidate ∈ source.flat.meaning .plain := by
  have parsed := Pattern.parse_print (isCanonical_pattern valid)
  rw [print_pattern valid] at parsed
  have answer : accepts source.text candidate = .ok (source.pattern.isFullMatch candidate) := by
    rw [accepts, parsed]
    rfl
  rw [answer, ← language_pattern valid, ← Pattern.isFullMatch_iff]
  exact ⟨Except.ok.inj, congrArg Except.ok⟩

end FlatSource

end Patterns

end SumStar
