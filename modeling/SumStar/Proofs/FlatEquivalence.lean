import SumStar.Proofs.DerivationRuns
import SumStar.Proofs.FlatPatterns
import SumStar.Proofs.FlatRepetitions
import SumStar.Proofs.SourceSplits

/-! On flat sources the grammar that is derived and direct matching agree. Both phases keep what the
source stands for, in the valuation that says what each character generates in the grammar, and
direct matching reads the source with every letter standing for itself. -/

namespace SumStar

open Text

namespace FlatSource

variable {source : FlatSource}

theorem not_isBlank_sumText {words : List Text} (sum : IsSum (fun c => c.isLower = true) words) :
    ∀ c ∈ sumText words, isBlank c = false := by
  intro c member
  rcases List.mem_cons.mp member with rfl | inner
  · decide
  rcases List.mem_append.mp inner with inside | closing
  · rcases mem_intercalate inside with rfl | ⟨word, inside, here⟩
    · decide
    · obtain ⟨above, below⟩ := toNat_of_isLower (sum.composed word inside c here)
      exact not_isBlank_of_toNat (by omega) (by omega)
  · rw [List.mem_singleton.mp closing]
    decide

theorem IsValid.not_isBlank (valid : source.IsValid) : ∀ c ∈ source.text, isBlank c = false := by
  intro c member
  rcases List.mem_append.mp member with repeated | behind
  · obtain ⟨words, inside, here⟩ := List.mem_flatMap.mp repeated
    rcases List.mem_append.mp here with sum | star
    · exact not_isBlank_sumText (valid.starred words inside) c sum
    · rw [List.mem_singleton.mp star]
      decide
  · obtain ⟨item, inside, here⟩ := List.mem_flatMap.mp behind
    have own := valid.items item inside
    cases item with
    | letter d =>
      obtain rfl := List.mem_singleton.mp here
      obtain ⟨above, below⟩ := toNat_of_isLower own
      exact not_isBlank_of_toNat (by omega) (by omega)
    | sum words => exact not_isBlank_sumText own.1 c here

end FlatSource

/-- Both phases succeed on a flat source. The grammar with a symbol for each group generates what the
source stands for, unless the letters run out. -/
private theorem exists_assemble {source : FlatSource} (valid : source.IsValid) (memory : GroupMemory)
    (terminals : Text) :
    ∃ sums, reduceSums memory source.text {} = .ok sums ∧
      ∀ grammar, grammar = Grammar.assemble terminals sums (reduceStars .separate sums.expression sums.supply) →
        grammar.nonTerminals.length ≤ 25 → ∀ candidate,
          candidate ∈ source.flat.meaning .plain ↔ grammar.Generates candidate := by
  obtain ⟨last, absent, answer, numbered, faithful⟩ := reduceSums_flat valid.composed memory
  rw [FlatSource.text_flat] at answer
  refine ⟨_, answer, ?_⟩
  intro grammar same few candidate
  have all : Numbered (last.productions ++ (reduceStars .separate last.expression last.supply).productions)
      (reduceStars .separate last.expression last.supply).supply := Reduction.numbered_reduceStars numbered _
  have within : (reduceStars .separate last.expression last.supply).supply.position ≤ 25 := by
    rw [same] at few
    exact Nat.le_trans (Grammar.position_le all) few
  have below : last.supply.position ≤ 25 := by
    rw [Reduction.position_reduceStars] at within
    omega
  have short : grammar.IsShort := same ▸ Grammar.isShort_assemble all within
  have reads := Grammar.reads_valuation short
  have kept : grammar.valuation.spell grammar.expression = source.flat.meaning grammar.valuation := by
    rw [same] at reads ⊢
    exact (faithful below).reduceStars absent within reads
  rw [Grammar.generates_iff short, kept, Flat.meaning_congr valid.composed reads.letter]
  rfl

/-- The grammar derived from a flat source generates what direct matching accepts. -/
theorem flat_derivation_agrees (source : FlatSource) (valid : source.IsValid) (terminals : Text)
    (line : '\n' ∉ terminals) (memory : GroupMemory) (naming : StarNaming) :
    ∃ grammar, Grammar.derive ⟨memory, naming⟩ (terminals ++ '\n' :: source.text) = .ok grammar ∧
      (grammar.nonTerminals.length ≤ 25 →
        (naming = .shared → ∀ sums, reduceSums memory source.text {} = .ok sums →
          (StarGroup.findAll sums.expression).eraseDups.length ≤ 1) →
        ∀ candidate, accepts source.text candidate = .ok true ↔ grammar.Generates candidate) := by
  have read : Source.ofText (terminals ++ '\n' :: source.text) =
      .ok ⟨Source.withoutCarriageReturn terminals, source.text⟩ := by
    rw [Source.ofText_append line, Text.trim_of_not_isBlank valid.not_isBlank]
  obtain ⟨sums, reduced, agrees⟩ := exists_assemble valid memory (Source.withoutCarriageReturn terminals)
  refine ⟨_, Grammar.derive_of_reduceSums read reduced, ?_⟩
  intro few single candidate
  rw [FlatSource.accepts_iff valid]
  apply agrees _ _ few
  cases naming with
  | separate => rfl
  | shared =>
    obtain ⟨expression, productions⟩ := reduceStars_shared sums.supply (single rfl sums reduced)
    simp only [Grammar.assemble, expression, productions]

/-- A repeated sum in front of a letter and a sum, with one symbol for all repetitions. -/
theorem flat_derivation_agrees_repeated_sum :
    let source : FlatSource := ⟨[[['a', 'b'], ['c']]], [.letter 'a', .sum [['b'], ['c', 'd']]]⟩
    ∃ grammar, Grammar.derive ⟨.run, .shared⟩ (['a', 'b'] ++ '\n' :: source.text) = .ok grammar ∧
      grammar.nonTerminals = [.nth 0, .nth 1, .nth 2] ∧
      ∀ candidate, accepts source.text candidate = .ok true ↔ grammar.Generates candidate := by
  have valid : FlatSource.IsValid ⟨[[['a', 'b'], ['c']]], [.letter 'a', .sum [['b'], ['c', 'd']]]⟩ := by
    constructor
    · intro words member
      obtain rfl := List.mem_singleton.mp member
      exact isSum_of_all (by simp) (by decide)
    · intro item member
      rcases List.mem_cons.mp member with rfl | last
      · rfl
      · obtain rfl := List.mem_singleton.mp last
        exact ⟨isSum_of_all (by simp) (by decide), by simp⟩
  obtain ⟨grammar, answer, agrees⟩ := flat_derivation_agrees _ valid ['a', 'b'] (by decide) .run .shared
  let expected : Grammar :=
    { nonTerminals := [.nth 0, .nth 1, .nth 2]
      terminals := ['a', 'b']
      expression := ['C', 'a', 'B']
      sumProductions := [⟨.nth 0, ['a', 'b']⟩, ⟨.nth 0, ['c']⟩, ⟨.nth 1, ['b']⟩, ⟨.nth 1, ['c', 'd']⟩]
      starProductions := [⟨.nth 2, ['A', 'C']⟩, ⟨.nth 2, []⟩] }
  have computed : Grammar.derive ⟨.run, .shared⟩ (['a', 'b'] ++ '\n' :: FlatSource.text
      ⟨[[['a', 'b'], ['c']]], [.letter 'a', .sum [['b'], ['c', 'd']]]⟩) = .ok expected := by decide +kernel
  obtain rfl : expected = grammar := Except.ok.inj (computed.symm.trans answer)
  refine ⟨expected, answer, rfl, agrees (by decide) ?_⟩
  intro _ sums reduced
  have left : (reduceSums .run (FlatSource.text
      ⟨[[['a', 'b'], ['c']]], [.letter 'a', .sum [['b'], ['c', 'd']]]⟩) {}).map Reduction.expression =
        .ok ['A', '*', 'a', 'B'] := by decide +kernel
  rw [reduced] at left
  rw [show sums.expression = ['A', '*', 'a', 'B'] from Except.ok.inj left]
  decide

end SumStar
