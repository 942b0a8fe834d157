import SumStar.Grammar.Render
import SumStar.Proofs.KeptCharacters

/-! The bodies of emitted productions. Whatever the phases met before, a sum group is cut into words and a star
group holds one, and only names are put behind it. So no sign is left in a production, and
rendering drops parentheses from the terminals and from the start production only. -/

namespace SumStar

open Text

variable {memory : GroupMemory} {naming : StarNaming} {expression : Text} {supply : Supply}

namespace SumProgress

variable {progress last : SumProgress} {group rest : Text} {scans : Nat}

/-- The bodies are words. -/
def EmitsWords (progress : SumProgress) : Prop :=
  ∀ production ∈ progress.productions, production.body ≠ [] ∧ IsWordly production.body

theorem EmitsWords.introduce (emits : progress.EmitsWords) (stands : SumGroup.Piece group rest) :
    (progress.introduce memory group).EmitsWords := by
  have sum := stands.isSum_alternatives
  intro production member
  rcases List.mem_append.mp member with old | new
  · exact emits production old
  · obtain ⟨body, inside, rfl⟩ := List.mem_map.mp new
    exact ⟨sum.present body inside, sum.composed body inside⟩

theorem EmitsWords.visit (emits : progress.EmitsWords) (stands : SumGroup.Piece group rest) :
    (progress.visit memory group).EmitsWords := by
  rcases emission_cases memory progress group with ⟨productions, _⟩ | same
  · rwa [EmitsWords, productions]
  · rw [same]
    exact emits.introduce stands

theorem Settles.emitsWords (settles : Settles memory scans progress last) (emits : progress.EmitsWords) :
    last.EmitsWords :=
  settles.piece_invariant EmitsWords (fun here stands => here.visit stands) emits

end SumProgress

theorem emitsWords_of_reduceSums {sums : Reduction} (answer : reduceSums memory expression supply = .ok sums) :
    ∀ production ∈ sums.productions, production.body ≠ [] ∧ IsWordly production.body := by
  obtain ⟨scans, last, settles, rfl⟩ := exists_settles_of_reduceSums answer
  exact settles.emitsWords (by simp [SumProgress.EmitsWords, SumProgress.initial])

namespace Reduction

variable {reduction : Reduction} {group word : Text}

/-- The productions are those of repetitions of words. -/
def EmitsRepetitions (reduction : Reduction) : Prop :=
  ∃ repetitions : List (Symbol × Text),
    reduction.productions = repetitions.flatMap (fun entry => repetition entry.1 entry.2) ∧
      ∀ entry ∈ repetitions, entry.2 ≠ [] ∧ IsWordly entry.2

theorem EmitsRepetitions.visitStar (emits : reduction.EmitsRepetitions) (stands : StarGroup.Piece group word) :
    (reduction.visitStar naming group).EmitsRepetitions := by
  obtain ⟨repetitions, same, words⟩ := emits
  refine ⟨repetitions ++ [(reduction.supply.peek, word)], ?_, ?_⟩
  · rw [productions_visitStar, same, stands.body_eq, List.flatMap_append, List.flatMap_singleton]
  · intro entry member
    rcases List.mem_append.mp member with old | new
    · exact words entry old
    · rw [List.mem_singleton.mp new]
      exact ⟨stands.word_ne_nil, stands.isWordly⟩

theorem EmitsRepetitions.isWordly (emits : reduction.EmitsRepetitions) :
    ∀ production ∈ reduction.productions, IsWordly production.body := by
  obtain ⟨repetitions, same, words⟩ := emits
  intro production member
  rw [same] at member
  obtain ⟨⟨symbol, word⟩, inside, emitted⟩ := List.mem_flatMap.mp member
  rcases List.mem_cons.mp emitted with rfl | last
  · intro c here
    rcases List.mem_append.mp here with own | named
    · exact (words _ inside).2 c own
    · exact symbol.isWordly_name c named
  · rw [List.mem_singleton.mp last]
    simp [IsWordly]

end Reduction

theorem emitsRepetitions_reduceStars (naming : StarNaming) (expression : Text) (supply : Supply) :
    (reduceStars naming expression supply).EmitsRepetitions := by
  have visited : ∀ reduction : Reduction, reduction.EmitsRepetitions → ∀ group ∈ StarGroup.findAll expression,
      (reduction.visitStar naming group).EmitsRepetitions := by
    intro reduction here group member
    obtain ⟨word, stands⟩ := StarGroup.exists_piece_of_mem_findAll member
    exact here.visitStar stands
  obtain ⟨scanned, ⟨repetitions, emitted, words⟩, _, same, _⟩ := reduceStars_invariant _ ⟨[], rfl, by simp⟩ visited
  exact ⟨repetitions, same.trans emitted, words⟩

theorem withoutParentheses_intercalate {c : Char} (plain : isParenthesis c = false) (texts : List Text) :
    withoutParentheses ([c].intercalate texts) = [c].intercalate (texts.map withoutParentheses) := by
  match texts with
  | [] => rfl
  | [text] => simp
  | text :: next :: others =>
    have single : withoutParentheses [c] = [c] := withoutParentheses_of_forall (by simpa using plain)
    rw [List.intercalate_cons_cons, List.map_cons, List.map_cons, List.intercalate_cons_cons, ← List.map_cons,
      withoutParentheses_append, withoutParentheses_append, single, withoutParentheses_intercalate plain (next :: others)]

theorem Symbol.withoutParentheses_name (symbol : Symbol) : withoutParentheses symbol.name = symbol.name :=
  symbol.isWordly_name.withoutParentheses

theorem Production.withoutParentheses_render {production : Production} (wordly : IsWordly production.body) :
    withoutParentheses production.render = production.render := by
  rw [Production.render, withoutParentheses_append, withoutParentheses_append, Symbol.withoutParentheses_name,
    wordly.withoutParentheses]
  rfl

namespace Grammar

variable {grammar : Grammar} {options : DerivationOptions} {content : Text}

theorem isWordly_of_derive (derived : derive options content = .ok grammar) :
    ∀ production ∈ grammar.productions, IsWordly production.body := by
  obtain ⟨source, read⟩ := exists_source_of_derive derived
  obtain ⟨sums, answer, rfl⟩ := exists_reduceSums_of_derive read derived
  intro production member
  rcases List.mem_append.mp member with sum | star
  · exact (emitsWords_of_reduceSums answer production sum).2
  · exact (emitsRepetitions_reduceStars _ _ _).isWordly production star

theorem plus_notMem_of_derive (derived : derive options content = .ok grammar) : '+' ∉ grammar.expression := by
  obtain ⟨source, read⟩ := exists_source_of_derive derived
  obtain ⟨sums, answer, rfl⟩ := exists_reduceSums_of_derive read derived
  exact fun left => plus_notMem_of_reduceSums answer (mem_of_mem_reduceStars (by decide) left)

theorem withoutParentheses_declaration (grammar : Grammar) :
    withoutParentheses grammar.declaration = grammar.declaration := by
  rw [declaration, withoutParentheses_intercalate rfl, List.map_map]
  apply congrArg
  exact List.map_congr_left fun symbol _ => symbol.withoutParentheses_name

theorem render_of_isWordly (wordly : ∀ production ∈ grammar.productions, IsWordly production.body) :
    grammar.render = ['\n'].intercalate
      ([grammar.declaration, withoutParentheses grammar.terminals, Symbol.start.name,
        withoutParentheses grammar.startProduction.render] ++ grammar.productions.map Production.render) := by
  have kept : (grammar.productions.map Production.render).map withoutParentheses =
      grammar.productions.map Production.render := by
    rw [List.map_map]
    exact List.map_congr_left fun production member => Production.withoutParentheses_render (wordly production member)
  rw [render, withoutParentheses_intercalate rfl, lines, List.map_append, kept, List.map_cons, List.map_cons,
    List.map_cons, List.map_singleton, withoutParentheses_declaration, Symbol.withoutParentheses_name]

end Grammar

/-- Sum groups emit words, star groups repetitions of words, and what is left behind both phases has no sum. So
rendering takes parentheses from the terminals and from the start production, and from nothing else. -/
theorem emitted_words (memory : GroupMemory) (naming : StarNaming) (expression : Text) (supply : Supply) :
    (∀ sums, reduceSums memory expression supply = .ok sums →
        ∀ production ∈ sums.productions, production.body ≠ [] ∧ IsWordly production.body) ∧
      (∃ repetitions : List (Symbol × Text),
        (reduceStars naming expression supply).productions =
            repetitions.flatMap (fun entry => [⟨entry.1, entry.2 ++ entry.1.name⟩, ⟨entry.1, []⟩]) ∧
          ∀ entry ∈ repetitions, entry.2 ≠ [] ∧ IsWordly entry.2) ∧
      ∀ options content grammar, Grammar.derive options content = .ok grammar →
        '+' ∉ grammar.expression ∧
        (∀ production ∈ grammar.productions, IsWordly production.body) ∧
        grammar.render = ['\n'].intercalate
          ([grammar.declaration, withoutParentheses grammar.terminals, Symbol.start.name,
            withoutParentheses grammar.startProduction.render] ++ grammar.productions.map Production.render) := by
  refine ⟨fun _ => emitsWords_of_reduceSums, emitsRepetitions_reduceStars naming expression supply, ?_⟩
  intro options content grammar derived
  have wordly := Grammar.isWordly_of_derive derived
  exact ⟨Grammar.plus_notMem_of_derive derived, wordly, Grammar.render_of_isWordly wordly⟩

/-- A single word in front of a sum, and a parenthesis that no group takes. -/
theorem emitted_words_unbalanced :
    ∃ sums grammar, reduceSums .scan "((x)+ab+c)*)".toList {} = .ok sums ∧
      (∀ production ∈ sums.productions, production.body ≠ [] ∧ IsWordly production.body) ∧
      Grammar.derive {} "a(b\n((x)+ab+c)*)".toList = .ok grammar ∧ grammar.expression = ['C', ')'] ∧
      grammar.render = ['\n'].intercalate
        ([grammar.declaration, ['a', 'b'], ['S'], "S -> C".toList] ++ grammar.productions.map Production.render) := by
  let sums : Reduction :=
    ⟨"(AB*)".toList, ⟨2⟩, [⟨.nth 0, ['x']⟩, ⟨.nth 1, ['a', 'b']⟩, ⟨.nth 1, ['c']⟩]⟩
  let grammar : Grammar :=
    { nonTerminals := [.nth 0, .nth 1, .nth 2]
      terminals := "a(b".toList
      expression := ['C', ')']
      sumProductions := sums.productions
      starProductions := [⟨.nth 2, "ABC".toList⟩, ⟨.nth 2, []⟩] }
  have reduced : reduceSums .scan "((x)+ab+c)*)".toList {} = .ok sums := by decide +kernel
  have derived : Grammar.derive {} "a(b\n((x)+ab+c)*)".toList = .ok grammar := by decide +kernel
  obtain ⟨words, _, rendered⟩ := emitted_words .scan .shared "((x)+ab+c)*)".toList {}
  exact ⟨sums, grammar, reduced, words sums reduced, derived, rfl, (rendered {} _ grammar derived).2.2⟩

end SumStar
