import SumStar.Proofs.SumOutcome

/-! A text is joined if every `+` stands directly between word characters. The sum phase keeps a
text joined, whatever it exchanges, and a joined text with a `+` in it is not irreducible. The phase
therefore succeeds on every joined text. -/

namespace SumStar

namespace Text

variable {target replacement text rest word : Text} {inside : Bool}

/-- Every `+` has a word character on either side. The flag tells whether one stands in front of
the text. -/
def Joined : Bool → Text → Prop
  | _, [] => True
  | inside, c :: rest => (c = '+' → inside = true ∧ rest.head?.any isWord = true) ∧ Joined (isWord c) rest

theorem Joined.behind_word (joined : Joined inside text) : Joined true text := by
  cases text with
  | nil => trivial
  | cons c rest => exact ⟨fun plus => ⟨rfl, (joined.1 plus).2⟩, joined.2⟩

theorem Joined.of_append {front : Text} (joined : Joined inside (front ++ rest)) : Joined true rest := by
  induction front generalizing inside with
  | nil => exact joined.behind_word
  | cons c front ih => exact ih joined.2

theorem Joined.word_append (own : IsWordly word) (joined : Joined true rest) : Joined true (word ++ rest) := by
  induction word with
  | nil => exact joined
  | cons c word ih =>
    have letter : isWord c = true := own c (by simp)
    refine ⟨?_, ?_⟩
    · intro plus
      rw [plus, isWord_plus] at letter
      cases letter
    · rw [letter]
      exact ih fun d member => own d (by simp [member])

theorem Joined.append (own : IsWordly word) (present : word ≠ []) (joined : Joined true rest) (inside : Bool) :
    Joined inside (word ++ rest) := by
  obtain ⟨c, letters, rfl⟩ := List.exists_cons_of_ne_nil present
  have whole := Joined.word_append own joined
  refine ⟨?_, whole.2⟩
  intro plus
  have letter := own c (by simp)
  rw [plus, isWord_plus] at letter
  cases letter

theorem head_append (own : IsWordly word) (present : word ≠ []) (rest : Text) :
    (word ++ rest).head?.any isWord = true := by
  obtain ⟨c, letters, rfl⟩ := List.exists_cons_of_ne_nil present
  exact own c (by simp)

theorem head_replaceAll (present : target ≠ []) (own : IsWordly replacement) (filled : replacement ≠ [])
    (leads : text.head?.any isWord = true) : (replaceAll target replacement text).head?.any isWord = true := by
  cases text with
  | nil => cases leads
  | cons c rest =>
    by_cases front : target <+: c :: rest
    · obtain ⟨behind, same⟩ := front
      rw [← same, replaceAll_append_of_ne_nil present]
      exact head_append own filled _
    · rw [replaceAll_cons_of_absent front]
      exact leads

theorem Joined.replaceAll (present : target ≠ []) (own : IsWordly replacement) (filled : replacement ≠ [])
    (joined : Joined inside text) : Joined inside (replaceAll target replacement text) := by
  induction text using replace_induction present generalizing inside with
  | nil => trivial
  | found rest ih =>
    rw [replaceAll_append_of_ne_nil present]
    exact Joined.append own filled (ih joined.of_append) inside
  | missed c rest absent ih =>
    rw [replaceAll_cons_of_absent absent]
    exact ⟨fun plus => (joined.1 plus).imp_right (head_replaceAll present own filled), ih joined.2⟩

private theorem Joined.exists_sum_behind {c : Char} (joined : Joined (isWord c) text) (plus : '+' ∈ text) :
    ∃ first last, isWord first = true ∧ isWord last = true ∧ [first, '+', last] <:+: c :: text := by
  induction text generalizing c with
  | nil => cases plus
  | cons d rest ih =>
    by_cases here : d = '+'
    · obtain ⟨letter, leads⟩ := joined.1 here
      cases rest with
      | nil => cases leads
      | cons last rest =>
        rw [here]
        exact ⟨c, last, letter, leads, (List.prefix_append [c, '+', last] rest).isInfix⟩
    · have later : '+' ∈ rest := (List.mem_cons.mp plus).resolve_left fun same => here same.symm
      obtain ⟨first, last, one, other, piece⟩ := ih joined.2 later
      exact ⟨first, last, one, other, List.infix_cons piece⟩

theorem Joined.exists_sum (joined : Joined false text) (plus : '+' ∈ text) :
    ∃ first last, isWord first = true ∧ isWord last = true ∧ [first, '+', last] <:+: text := by
  cases text with
  | nil => cases plus
  | cons c rest =>
    rcases List.mem_cons.mp plus with rfl | later
    · cases (joined.1 rfl).1
    · exact joined.2.exists_sum_behind later

end Text

open Text

theorem Irreducible.not_joined {text : Text} (irreducible : Irreducible text) (plus : '+' ∈ text) :
    ¬ Joined false text := by
  intro joined
  obtain ⟨first, last, one, other, piece⟩ := joined.exists_sum plus
  exact irreducible.sum first last one other piece

theorem reduceSums_of_joined {expression : Text} (joined : Joined false expression) (memory : GroupMemory)
    (supply : Supply) :
    ∃ scans last, SumProgress.Settles memory scans (.initial expression supply) last ∧
      '+' ∉ last.expression ∧
      reduceSums memory expression supply = .ok ⟨last.expression, last.supply, last.productions⟩ := by
  obtain ⟨scans, _, settles⟩ := SumProgress.settles_initial memory expression supply
  have remembers := SumProgress.remembers_initial expression supply
  have absent : '+' ∉ ((SumProgress.initial expression supply).settle memory
      (SumProgress.roundLimit expression)).expression := fun left =>
    (settles.irreducible remembers left).not_joined left
      (settles.expression_invariant (fun present own filled kept => kept.replaceAll present own filled) remembers joined)
  exact ⟨scans, _, settles, absent, if_neg absent⟩

end SumStar
