import SumStar.Proofs.Numbering
import SumStar.Proofs.SourceSplits
import SumStar.Proofs.StarGroups
import SumStar.Proofs.SumAlternatives

/-! What the reductions leave alone. Groups are made of word characters, their sign and parentheses, and names of
word characters. An exchange takes a group out and puts a name in, so all other characters stay, in
their order, however many scans there are and whatever their groups were found in. -/

namespace SumStar

open Text

variable {memory : GroupMemory} {naming : StarNaming} {expression : Text} {supply : Supply} {keep : Char → Bool}

theorem Text.filter_replaceAll {target replacement : Text} (present : target ≠ [])
    (out : ∀ c ∈ target, keep c = false) (put : ∀ c ∈ replacement, keep c = false) (text : Text) :
    (replaceAll target replacement text).filter keep = text.filter keep := by
  have taken : target.filter keep = [] := List.filter_eq_nil_iff.mpr fun c member => by simp [out c member]
  have given : replacement.filter keep = [] := List.filter_eq_nil_iff.mpr fun c member => by simp [put c member]
  induction text using replace_induction present with
  | nil => rfl
  | found rest ih => rw [replaceAll_append_of_ne_nil present, List.filter_append, List.filter_append, taken, given, ih]
  | missed c rest absent ih => rw [replaceAll_cons_of_absent absent, List.filter_cons, List.filter_cons, ih]

/-- The characters that groups with the sign are made of. -/
def concerns (sign c : Char) : Bool :=
  isWord c || c == sign || isParenthesis c

section Concerns

variable {sign c : Char}

theorem concerns_of_isWord (word : isWord c = true) : concerns sign c = true := by
  rw [concerns, word, Bool.true_or, Bool.true_or]

theorem concerns_of_isParenthesis (parenthesis : isParenthesis c = true) : concerns sign c = true := by
  rw [concerns, parenthesis, Bool.or_true]

theorem concerns_sign (sign : Char) : concerns sign sign = true := by
  simp [concerns]

end Concerns

theorem Text.mem_withoutParentheses {c : Char} {text : Text} (member : c ∈ text) :
    isParenthesis c = true ∨ c ∈ withoutParentheses text := by
  cases parenthesis : isParenthesis c with
  | true => exact Or.inl rfl
  | false => exact Or.inr (List.mem_filter.mpr ⟨member, by rw [parenthesis]; rfl⟩)

theorem SumGroup.Piece.concerns {group rest : Text} (stands : SumGroup.Piece group rest) :
    ∀ c ∈ group, concerns '+' c = true := by
  intro c member
  rcases mem_withoutParentheses member with parenthesis | kept
  · exact concerns_of_isParenthesis parenthesis
  have signs : isWord c = true ∨ c = '+' := by
    cases stands with
    | chain opens word linked _ closes =>
      rw [withoutParentheses_chain opens word linked closes] at kept
      exact (SumGroup.Linked.word word linked).composed c kept
    | single word =>
      rw [withoutParentheses_single word] at kept
      rcases List.mem_cons.mp kept with rfl | sign
      · exact Or.inl word
      · exact Or.inr (List.mem_singleton.mp sign)
  rcases signs with word | rfl
  · exact concerns_of_isWord word
  · exact concerns_sign '+'

theorem StarGroup.Piece.concerns {group word : Text} (stands : StarGroup.Piece group word) :
    ∀ c ∈ group, concerns '*' c = true := by
  intro c member
  rcases mem_withoutParentheses member with parenthesis | kept
  · exact concerns_of_isParenthesis parenthesis
  rw [stands.withoutParentheses] at kept
  rcases List.mem_append.mp kept with own | sign
  · exact concerns_of_isWord (stands.isWordly c own)
  · rw [List.mem_singleton.mp sign]
    exact concerns_sign '*'

namespace SumProgress

variable {progress last : SumProgress} {group rest : Text} {scans : Nat}
  (foreign : ∀ c, concerns '+' c = true → keep c = false)
include foreign

theorem filter_exchange (stands : SumGroup.Piece group rest) (symbol : Symbol) :
    (progress.exchange group symbol).expression.filter keep = progress.expression.filter keep := by
  apply filter_replaceAll (SumGroup.Piece.ne_nil stands)
  · exact fun c member => foreign c (stands.concerns c member)
  · exact fun c member => foreign c (concerns_of_isWord (symbol.isWordly_name c member))

theorem filter_visit (stands : SumGroup.Piece group rest) :
    (progress.visit memory group).expression.filter keep = progress.expression.filter keep := by
  rcases visit_cases memory progress group with same | ⟨symbol, _, same⟩ | same
  · rw [same]
  · rw [same, filter_exchange foreign stands]
  · rw [same]
    exact filter_exchange foreign stands progress.supply.peek

theorem Settles.filter_expression (settles : Settles memory scans progress last) :
    last.expression.filter keep = progress.expression.filter keep :=
  settles.piece_invariant (fun state => state.expression.filter keep = progress.expression.filter keep)
    (fun here stands => (filter_visit foreign stands).trans here) rfl

end SumProgress

theorem filter_reduceSums (foreign : ∀ c, concerns '+' c = true → keep c = false) {sums : Reduction}
    (answer : reduceSums memory expression supply = .ok sums) :
    sums.expression.filter keep = expression.filter keep := by
  obtain ⟨scans, last, settles, rfl⟩ := exists_settles_of_reduceSums answer
  exact settles.filter_expression foreign

theorem filter_residual (foreign : ∀ c, concerns '+' c = true → keep c = false) {stalled : Stalled}
    (answer : reduceSums memory expression supply = .error stalled) :
    stalled.residual.filter keep = expression.filter keep := by
  obtain ⟨scans, last, settles, same⟩ := exists_settles_of_stalled answer
  rw [same]
  exact settles.filter_expression foreign

theorem filter_reduceStars (foreign : ∀ c, concerns '*' c = true → keep c = false) (naming : StarNaming)
    (expression : Text) (supply : Supply) :
    (reduceStars naming expression supply).expression.filter keep = expression.filter keep := by
  have visited : ∀ reduction : Reduction, reduction.expression.filter keep = expression.filter keep →
      ∀ group ∈ StarGroup.findAll expression,
        (reduction.visitStar naming group).expression.filter keep = expression.filter keep := by
    intro reduction here group member
    obtain ⟨word, stands⟩ := StarGroup.exists_piece_of_mem_findAll member
    rw [Reduction.expression_visitStar, ← here]
    apply filter_replaceAll stands.ne_nil
    · exact fun c inside => foreign c (stands.concerns c inside)
    · exact fun c inside => foreign c (concerns_of_isWord (reduction.supply.peek.isWordly_name c inside))
  obtain ⟨scanned, kept, same, _⟩ :=
    reduceStars_invariant (fun reduction => reduction.expression.filter keep = expression.filter keep) rfl visited
  rw [same, kept]

theorem mem_of_mem_reduceStars {c : Char} (plain : concerns '*' c = false)
    (member : c ∈ (reduceStars naming expression supply).expression) : c ∈ expression := by
  have kept : (reduceStars naming expression supply).expression.filter (fun d => !concerns '*' d) =
      expression.filter fun d => !concerns '*' d := filter_reduceStars (by simp) naming expression supply
  have inside : c ∈ expression.filter fun d => !concerns '*' d :=
    kept ▸ List.mem_filter.mpr ⟨member, by rw [plain]; rfl⟩
  exact (List.mem_filter.mp inside).1

/-- Whether both phases leave the character alone wherever it stands. -/
def isUnconcerned (c : Char) : Bool :=
  !concerns '+' c && !concerns '*' c

section Passing

variable {sign c : Char} (passing : isBlank c = true ∨ 128 ≤ c.toNat)
include passing

/-- Blanks, line breaks among them, and characters beyond ASCII are neither signs nor part of words. -/
theorem not_concerns_of_passing (above : 0x20 < sign.toNat) (below : sign.toNat < 0x7F) : concerns sign c = false := by
  have outside : ¬ (0x20 < c.toNat ∧ c.toNat < 0x7F) := by
    intro ⟨low, high⟩
    rcases passing with blank | wide
    · rw [not_isBlank_of_toNat low high] at blank
      cases blank
    · omega
  cases concerned : concerns sign c with
  | false => rfl
  | true =>
    simp only [concerns, isParenthesis, Bool.or_eq_true, beq_iff_eq] at concerned
    rcases concerned with (word | rfl) | (rfl | rfl)
    · exact False.elim (outside (toNat_of_isWord word))
    · exact False.elim (outside ⟨above, below⟩)
    all_goals exact False.elim (outside (by decide))

theorem isUnconcerned_of_passing : isUnconcerned c = true := by
  rw [isUnconcerned, not_concerns_of_passing passing (by decide) (by decide),
    not_concerns_of_passing passing (by decide) (by decide)]
  rfl

end Passing

theorem Grammar.filter_of_derive {options : DerivationOptions} {content : Text} {source : Source} {grammar : Grammar}
    (read : Source.ofText content = .ok source) (derived : Grammar.derive options content = .ok grammar) :
    grammar.expression.filter isUnconcerned = source.expression.filter isUnconcerned ∧
      grammar.terminals = source.terminals := by
  obtain ⟨sums, answer, rfl⟩ := Grammar.exists_reduceSums_of_derive read derived
  refine ⟨?_, rfl⟩
  refine (filter_reduceStars ?_ options.naming sums.expression sums.supply).trans (filter_reduceSums ?_ answer)
  · intro c concerned
    simp [isUnconcerned, concerned]
  · intro c concerned
    simp [isUnconcerned, concerned]

/-- The characters outside the groups of a phase are the same before the phase and behind it, those of a stalled
run included, and so are the characters outside both kinds of groups in a derivation. Its source has
all characters of the content but a separator and outer blanks. -/
theorem filter_reductions (memory : GroupMemory) (naming : StarNaming) (expression : Text) (supply : Supply) :
    let outsideSums := fun text : Text => text.filter fun c => !concerns '+' c
    let outsideStars := fun text : Text => text.filter fun c => !concerns '*' c
    (∀ sums, reduceSums memory expression supply = .ok sums →
        outsideSums sums.expression = outsideSums expression ∧ sums.expression.count '*' = expression.count '*') ∧
      (∀ stalled, reduceSums memory expression supply = .error stalled →
        outsideSums stalled.residual = outsideSums expression ∧
          stalled.residual.count '*' = expression.count '*') ∧
      outsideStars (reduceStars naming expression supply).expression = outsideStars expression ∧
      (∀ c, isBlank c = true ∨ 128 ≤ c.toNat → isUnconcerned c = true) ∧
      ∀ options content source grammar, Source.ofText content = .ok source →
        Grammar.derive options content = .ok grammar →
          grammar.expression.filter isUnconcerned = source.expression.filter isUnconcerned ∧
          grammar.terminals = source.terminals ∧
          ∃ line left right, content = line ++ '\n' :: (left ++ source.expression ++ right) ∧
            source.terminals = Source.withoutCarriageReturn line ∧ ∀ c ∈ left ++ right, isBlank c = true := by
  intro outsideSums outsideStars
  have plainSums : ∀ c, concerns '+' c = true → (!concerns '+' c) = false := by simp
  have counted : ∀ {text other : Text}, outsideSums text = outsideSums other → text.count '*' = other.count '*' := by
    intro text other same
    have star : ∀ text, (outsideSums text).count '*' = text.count '*' := fun text => List.count_filter (by decide)
    rw [← star text, ← star other, same]
  refine ⟨fun sums answer => ?_, fun stalled answer => ?_, filter_reduceStars (by simp) naming expression supply,
    fun _ => isUnconcerned_of_passing, fun options content source grammar read derived => ?_⟩
  · have same := filter_reduceSums plainSums answer
    exact ⟨same, counted same⟩
  · have same := filter_residual plainSums answer
    exact ⟨same, counted same⟩
  · obtain ⟨line, left, right, split, _, terminals, blank⟩ := Source.exists_split read
    obtain ⟨kept, same⟩ := Grammar.filter_of_derive read derived
    exact ⟨kept, same, line, left, right, split, terminals, blank⟩

/-- A line break, spaces and a letter of another alphabet between the groups, and a sum of such a letter. -/
theorem filter_reductions_foreign :
    let source : Source := ⟨"a,ä".toList, "(a+b)*\n é (x)+y*".toList⟩
    ∃ sums stalled grammar, reduceSums .scan source.expression {} = .ok sums ∧ sums.expression.count '*' = 2 ∧
      reduceSums .scan "(a+b)+é *".toList {} = .error stalled ∧ stalled.residual.count '*' = 1 ∧
      Source.ofText "a,ä\n\t(a+b)*\n é (x)+y* ".toList = .ok source ∧
      Grammar.derive {} "a,ä\n\t(a+b)*\n é (x)+y* ".toList = .ok grammar ∧
      grammar.expression.filter isUnconcerned = "\n é ".toList ∧ 128 ≤ 'é'.toNat ∧ isUnconcerned 'é' = true := by
  intro source
  let sums : Reduction :=
    ⟨"A*\n é By*".toList, ⟨2⟩, [⟨.nth 0, ['a']⟩, ⟨.nth 0, ['b']⟩, ⟨.nth 1, ['x']⟩]⟩
  let grammar : Grammar :=
    { nonTerminals := [.nth 0, .nth 1, .nth 2]
      terminals := "a,ä".toList
      expression := "C\n é C".toList
      sumProductions := sums.productions
      starProductions := [⟨.nth 2, "AC".toList⟩, ⟨.nth 2, []⟩, ⟨.nth 2, "ByC".toList⟩, ⟨.nth 2, []⟩] }
  have reduced : reduceSums .scan source.expression {} = .ok sums := by decide +kernel
  have stopped : reduceSums .scan "(a+b)+é *".toList {} = .error ⟨"A+é *".toList⟩ := by decide +kernel
  have read : Source.ofText "a,ä\n\t(a+b)*\n é (x)+y* ".toList = .ok source := by decide +kernel
  have derived : Grammar.derive {} "a,ä\n\t(a+b)*\n é (x)+y* ".toList = .ok grammar := by decide +kernel
  have wide : 128 ≤ 'é'.toNat := by decide
  obtain ⟨kept, _, _, passing, through⟩ := filter_reductions .scan .shared source.expression {}
  obtain ⟨_, residual, _⟩ := filter_reductions .scan .shared "(a+b)+é *".toList {}
  have same := (through {} _ source grammar read derived).1
  exact ⟨sums, _, grammar, reduced, (kept sums reduced).2, stopped, (residual _ stopped).2, read, derived,
    same.trans (by decide +kernel), wide, passing 'é' (Or.inr wide)⟩

end SumStar
