import SumStar.Proofs.EmittedBodies
import SumStar.Proofs.SourceLayouts

/-! Reading a rendering back. Names and bodies are words and no phase puts a line feed into an expression, so a line
ends only where one was written, a comma stands between names only, and the first arrow of a production is
the one behind its head. A rendering does not say where the sums end and the repetitions begin, but it shows how
many bodies are empty, and there is one of them in each repetition and none in a sum. -/

namespace SumStar

open Text

/-- The texts in front of the first occurrence and behind it. -/
def Text.cut? (separator : Text) : Text → Option (Text × Text)
  | [] => none
  | c :: rest =>
    if separator.isPrefixOf (c :: rest) then
      some ([], (c :: rest).drop separator.length)
    else
      (cut? separator rest).map fun pieces => (c :: pieces.1, pieces.2)

theorem Text.cut?_append {c : Char} {separator front : Text} (foreign : c ∉ front) (behind : Text) :
    cut? (c :: separator) (front ++ c :: separator ++ behind) = some (front, behind) := by
  induction front with
  | nil =>
    have here : (c :: separator).isPrefixOf (c :: (separator ++ behind)) = true :=
      List.isPrefixOf_iff_prefix.mpr ⟨behind, rfl⟩
    simp [cut?, here]
  | cons first front ih =>
    have other : c ≠ first := fun same => foreign (same ▸ List.mem_cons_self)
    have later := ih fun member => foreign (List.mem_cons_of_mem first member)
    have missed : (c :: separator).isPrefixOf (first :: (front ++ c :: separator ++ behind)) = false := by
      simp [List.isPrefixOf, other]
    rw [List.cons_append, List.cons_append, cut?, missed, later]
    rfl

theorem Production.cut?_render (production : Production) :
    cut? Production.arrow production.render = some (production.head.name, production.body) :=
  cut?_append (production.head.isWordly_name.notMem (by decide)) production.body

theorem Production.lineFeed_notMem_render {production : Production} (wordly : IsWordly production.body) :
    '\n' ∉ production.render := by
  intro member
  rcases List.mem_append.mp member with front | body
  · rcases List.mem_append.mp front with head | arrow
    · exact production.head.isWordly_name.notMem (by decide) head
    · exact absurd arrow (by decide)
  · exact wordly.notMem (by decide) body

/-- Of the two productions of each repetition, one has an empty body. -/
theorem Reduction.EmitsRepetitions.length_eq {reduction : Reduction} (emits : reduction.EmitsRepetitions) :
    reduction.productions.length = 2 * reduction.productions.countP (·.body = []) := by
  obtain ⟨repetitions, same, words⟩ := emits
  rw [same]
  clear same words
  induction repetitions with
  | nil => rfl
  | cons entry repetitions ih =>
    have round : entry.2 ++ entry.1.name ≠ [] := fun empty =>
      entry.1.name_ne_nil (List.append_eq_nil_iff.mp empty).2
    have size : (repetition entry.1 entry.2).length = 2 := rfl
    have empties : (repetition entry.1 entry.2).countP (·.body = []) = 1 := by
      simp [repetition, round]
    rw [List.flatMap_cons, List.length_append, List.countP_append, ih, size, empties]
    omega

theorem Text.notMem_withoutParentheses {c : Char} {text : Text} (absent : c ∉ text) : c ∉ withoutParentheses text :=
  fun member => absent (List.mem_filter.mp member).1

namespace Grammar

variable {grammar other : Grammar} {source : Source} {options : DerivationOptions} {content : Text} {lines : List Text}

theorem splitOn_declaration (grammar : Grammar) :
    grammar.declaration.splitOn ',' = Symbol.start.name :: grammar.nonTerminals.map Symbol.name := by
  apply List.splitOn_intercalate ','
  · intro name member
    obtain ⟨symbol, _, rfl⟩ := List.mem_map.mp member
    exact symbol.isWordly_name.notMem (by decide)
  · exact List.cons_ne_nil _ _

theorem lineFeed_notMem_declaration (grammar : Grammar) : '\n' ∉ grammar.declaration := by
  intro member
  rcases mem_intercalate member with comma | ⟨name, listed, inside⟩
  · exact absurd comma (by decide)
  · obtain ⟨symbol, _, rfl⟩ := List.mem_map.mp listed
    exact symbol.isWordly_name.notMem (by decide) inside

theorem lineFeed_notMem_expression (read : Source.ofText content = .ok source)
    (derived : derive options content = .ok grammar) (line : '\n' ∉ source.expression) : '\n' ∉ grammar.expression := by
  intro member
  have kept := (filter_of_derive read derived).1
  have inside : '\n' ∈ grammar.expression.filter isUnconcerned := List.mem_filter.mpr ⟨member, by decide⟩
  rw [kept] at inside
  exact line (List.mem_filter.mp inside).1

theorem withoutParentheses_startProduction (grammar : Grammar) :
    withoutParentheses grammar.startProduction.render = "S -> ".toList ++ withoutParentheses grammar.expression :=
  withoutParentheses_append ("S -> ".toList) grammar.expression

/-- The lines of a rendering are the lines that were written. -/
theorem splitOn_render (read : Source.ofText content = .ok source) (derived : derive options content = .ok grammar)
    (line : '\n' ∉ source.expression) :
    grammar.render.splitOn '\n' =
      [grammar.declaration, withoutParentheses source.terminals, Symbol.start.name,
        "S -> ".toList ++ withoutParentheses grammar.expression] ++ grammar.productions.map Production.render := by
  have wordly := isWordly_of_derive derived
  obtain ⟨_, _, _, laid⟩ := Source.exists_laidOut read
  have plain := lineFeed_notMem_expression read derived line
  rw [render_of_isWordly wordly, (filter_of_derive read derived).2, withoutParentheses_startProduction]
  apply List.splitOn_intercalate '\n'
  · intro text member
    rcases List.mem_append.mp member with front | rule
    · simp only [List.mem_cons, List.not_mem_nil, or_false] at front
      rcases front with rfl | rfl | rfl | rfl
      · exact grammar.lineFeed_notMem_declaration
      · exact notMem_withoutParentheses laid.line
      · decide
      · intro inside
        rcases List.mem_append.mp inside with arrow | rest
        · exact absurd arrow (by decide)
        · exact notMem_withoutParentheses plain rest
    · obtain ⟨production, listed, rfl⟩ := List.mem_map.mp rule
      exact Production.lineFeed_notMem_render (wordly production listed)
  · exact List.cons_ne_nil _ _

/-- What the lines of a rendering tell of the grammar and its source. -/
structure ReadsBack (source : Source) (grammar : Grammar) (lines : List Text) : Prop where
  count : lines.length = 4 + grammar.sumProductions.length + grammar.starProductions.length
  declared : lines[0]?.map (·.splitOn ',') = some (['S'] :: grammar.nonTerminals.map Symbol.name)
  terminals : lines[1]? = some (withoutParentheses source.terminals)
  start : lines[2]? = some ['S']
  expression : lines[3]? = some ("S -> ".toList ++ withoutParentheses grammar.expression)
  productions : (lines.drop 4).map (cut? " -> ".toList) =
    grammar.productions.map fun production => some (production.head.name, production.body)

theorem readsBack_of_derive (read : Source.ofText content = .ok source) (derived : derive options content = .ok grammar)
    (line : '\n' ∉ source.expression) : ReadsBack source grammar (grammar.render.splitOn '\n') := by
  rw [splitOn_render read derived line]
  constructor
  case count =>
    simp only [List.length_append, List.length_map, productions, List.length_cons, List.length_nil]
    omega
  case declared => exact congrArg some grammar.splitOn_declaration
  case terminals => rfl
  case start => rfl
  case expression => rfl
  case productions =>
    change (grammar.productions.map Production.render).map (cut? Production.arrow) = _
    rw [List.map_map]
    exact List.map_congr_left fun production _ => production.cut?_render

theorem ReadsBack.nonTerminals_eq {first second : Source} (one : ReadsBack first grammar lines)
    (two : ReadsBack second other lines) : grammar.nonTerminals = other.nonTerminals := by
  have names := List.cons.inj (Option.some.inj (one.declared.symm.trans two.declared))
  exact List.map_injective_iff.mpr Symbol.name_injective names.2

theorem ReadsBack.productions_eq {first second : Source} (one : ReadsBack first grammar lines)
    (two : ReadsBack second other lines) : grammar.productions = other.productions := by
  have injective : Function.Injective fun production : Production => some (production.head.name, production.body) := by
    intro ⟨head, body⟩ ⟨otherHead, otherBody⟩ same
    obtain ⟨heads, bodies⟩ := Prod.mk.inj (Option.some.inj same)
    obtain rfl : head = otherHead := Symbol.name_injective heads
    exact congrArg (Production.mk head) bodies
  exact List.map_injective_iff.mpr injective (one.productions.symm.trans two.productions)

/-- The number of empty bodies tells where the sums end. -/
theorem length_starProductions (derived : derive options content = .ok grammar) :
    grammar.starProductions.length = 2 * grammar.productions.countP (·.body = []) := by
  obtain ⟨source, read⟩ := exists_source_of_derive derived
  obtain ⟨sums, answer, rfl⟩ := exists_reduceSums_of_derive read derived
  have none : sums.productions.countP (·.body = []) = 0 := by
    apply List.countP_eq_zero.mpr
    intro production member
    simpa using (emitsWords_of_reduceSums answer production member).1
  have stars := (emitsRepetitions_reduceStars options.naming sums.expression sums.supply).length_eq
  rw [productions, List.countP_append]
  change _ = 2 * (sums.productions.countP _ + _)
  rw [none, Nat.zero_add]
  exact stars

/-- The rendering of a grammar that was derived from a single line can be read back: the symbols from its first line,
then the terminals and the expression without parentheses, then each production as it was emitted. Two of them
that are rendered alike have the same symbols, the same sums and the same repetitions. -/
theorem rendering_readable :
    (∀ options content source grammar, Source.ofText content = .ok source → derive options content = .ok grammar →
        '\n' ∉ source.expression → ReadsBack source grammar (grammar.render.splitOn '\n')) ∧
      ∀ options content source grammar otherOptions otherContent otherSource other,
        Source.ofText content = .ok source → derive options content = .ok grammar → '\n' ∉ source.expression →
        Source.ofText otherContent = .ok otherSource → derive otherOptions otherContent = .ok other →
        '\n' ∉ otherSource.expression → grammar.render = other.render →
          grammar.nonTerminals = other.nonTerminals ∧ grammar.sumProductions = other.sumProductions ∧
            grammar.starProductions = other.starProductions := by
  refine ⟨fun _ _ _ _ => readsBack_of_derive, ?_⟩
  intro options content source grammar otherOptions otherContent otherSource other read derived line
    otherRead otherDerived otherLine same
  have one := readsBack_of_derive read derived line
  have two := readsBack_of_derive otherRead otherDerived otherLine
  rw [same] at one
  have productions : grammar.sumProductions ++ grammar.starProductions = other.sumProductions ++ other.starProductions :=
    one.productions_eq two
  have stars : grammar.starProductions.length = other.starProductions.length := by
    rw [length_starProductions derived, length_starProductions otherDerived, one.productions_eq two]
  obtain ⟨sums, repetitions⟩ := List.append_inj' productions stars
  exact ⟨one.nonTerminals_eq two, sums, repetitions⟩

/-- The parentheses of the terminals and those around a name do not show in a rendering. -/
theorem rendering_readable_parentheses :
    let content := "a(b\n(x(a+b))*c".toList
    let other := "ab\r\n  x(a+b)*c\n".toList
    ∃ source grammar otherSource otherGrammar,
      (Source.ofText content = .ok source ∧ derive {} content = .ok grammar ∧ '\n' ∉ source.expression) ∧
      (Source.ofText other = .ok otherSource ∧ derive { memory := .run, naming := .separate } other = .ok otherGrammar ∧
        '\n' ∉ otherSource.expression) ∧
      grammar.render = otherGrammar.render ∧ ReadsBack source grammar (grammar.render.splitOn '\n') ∧
      grammar.sumProductions = otherGrammar.sumProductions := by
  intro content other
  let grammar : Grammar :=
    { nonTerminals := [.nth 0, .nth 1]
      terminals := "a(b".toList
      expression := "Bc".toList
      sumProductions := [⟨.nth 0, ['a']⟩, ⟨.nth 0, ['b']⟩]
      starProductions := [⟨.nth 1, "xAB".toList⟩, ⟨.nth 1, []⟩] }
  let otherGrammar : Grammar := { grammar with terminals := "ab".toList }
  have read : Source.ofText content = .ok ⟨"a(b".toList, "(x(a+b))*c".toList⟩ := by decide
  have derived : derive {} content = .ok grammar := by decide +kernel
  have otherRead : Source.ofText other = .ok ⟨"ab".toList, "x(a+b)*c".toList⟩ := by decide
  have otherDerived : derive { memory := .run, naming := .separate } other = .ok otherGrammar := by decide +kernel
  have same : grammar.render = otherGrammar.render := by decide +kernel
  obtain ⟨readable, alike⟩ := rendering_readable
  refine ⟨_, grammar, _, otherGrammar, ⟨read, derived, by decide⟩, ⟨otherRead, otherDerived, by decide⟩, same, ?_, ?_⟩
  · exact readable _ _ _ _ read derived (by decide)
  · exact (alike _ _ _ _ _ _ _ _ read derived (by decide) otherRead otherDerived (by decide) same).2.1

end Grammar

end SumStar
