import Mathlib.Data.List.Chain
import SumStar.Proofs.JoinedSums
import SumStar.Proofs.LevelSums

/-! Where the sum phase stalls on nested expressions. No exchange empties a side of a `+` or a pair
of parentheses, and in an irreducible text the innermost parentheses hold a single character then.
So a run that stalls has put a symbol in parentheses by itself. -/

namespace SumStar

namespace Text

variable {target replacement text rest word : Text} {first next other c : Char}

/-- What may stand behind a character: behind `+` and an opening parenthesis something begins. -/
def Follows (first next : Char) : Prop :=
  first = '+' ∨ first = '(' → next ≠ '+' ∧ next ≠ ')'

/-- A text of words, `+` and parentheses in which no side of a `+` is empty and no pair of
parentheses, one around the whole text included. -/
structure Filled (text : Text) : Prop where
  signs : ∀ c ∈ text, isWord c = true ∨ c = '+' ∨ isParenthesis c = true
  chain : ('(' :: (text ++ [')'])).IsChain Follows

theorem follows_word (letter : isWord next = true) (first : Char) : Follows first next := fun _ =>
  ⟨ne_of_isWord letter isWord_plus, ne_of_isWord letter isWord_closing⟩

theorem word_follows (letter : isWord first = true) (next : Char) : Follows first next := by
  rintro (plus | opening)
  · exact False.elim (ne_of_isWord letter isWord_plus plus)
  · exact False.elim (ne_of_isWord letter isWord_opening opening)

/-- A word may stand anywhere. -/
theorem isChain_word_append (own : IsWordly word) (filled : word ≠ [])
    (behind : ∀ last, isWord last = true → (last :: rest).IsChain Follows) :
    (first :: (word ++ rest)).IsChain Follows := by
  induction word generalizing first with
  | nil => exact False.elim (filled rfl)
  | cons c word ih =>
    have letter := own c (by simp)
    cases word with
    | nil => exact (behind c letter).cons_cons (follows_word letter first)
    | cons d word =>
      have later : (c :: (d :: word ++ rest)).IsChain Follows :=
        ih (fun e member => own e (by simp [member])) (List.cons_ne_nil d word)
      exact later.cons_cons (follows_word letter first)

/-- An exchange for a word in front of a closing parenthesis, behind a character that stays or behind
a word. -/
theorem isChain_replaceAll (present : target ≠ []) (own : IsWordly replacement) (filled : replacement ≠ [])
    (kept : other = first ∨ isWord other = true) (chain : (first :: (text ++ [')'])).IsChain Follows) :
    (other :: (replaceAll target replacement text ++ [')'])).IsChain Follows := by
  induction text using replace_induction present generalizing first other with
  | nil =>
    rcases kept with rfl | letter
    · exact chain
    · exact (List.isChain_singleton _).cons_cons (word_follows letter _)
  | found rest ih =>
    rw [replaceAll_append_of_ne_nil present, List.append_assoc]
    apply isChain_word_append own filled
    intro last letter
    obtain ⟨front, c, rfl⟩ := (List.eq_nil_or_concat target).resolve_left present
    have whole : (first :: front ++ c :: (rest ++ [')'])).IsChain Follows := by simpa using chain
    exact ih (Or.inr letter) whole.right_of_append
  | missed c rest absent ih =>
    rw [replaceAll_cons_of_absent absent, List.cons_append]
    obtain ⟨follows, behind⟩ := List.isChain_cons_cons.mp chain
    apply (ih (Or.inl rfl) behind).cons_cons
    rcases kept with rfl | letter
    · exact follows
    · exact word_follows letter c

theorem Filled.replaceAll (present : target ≠ []) (own : IsWordly replacement) (filled : replacement ≠ [])
    (whole : Filled text) : Filled (replaceAll target replacement text) := by
  refine ⟨?_, isChain_replaceAll present own filled (Or.inl rfl) whole.chain⟩
  intro c member
  rcases mem_of_mem_replaceAll present member with new | old
  · exact Or.inl (own c new)
  · exact whole.signs c old

/-- Within a filled text without parentheses a `+` has a character on either side. -/
theorem exists_sum_of_plus {inner : Text} (signs : ∀ c ∈ inner, isWord c = true ∨ c = '+')
    (chain : ('(' :: (inner ++ ')' :: rest)).IsChain Follows) (plus : '+' ∈ inner) :
    ∃ first last, isWord first = true ∧ isWord last = true ∧ [first, '+', last] <:+: inner := by
  obtain ⟨before, after, rfl⟩ := List.append_of_mem plus
  have lettered : ∀ c ∈ before ++ '+' :: after, c ≠ '+' → isWord c = true := fun c member other =>
    (signs c member).resolve_right other
  rcases List.eq_nil_or_concat before with rfl | ⟨before, first, rfl⟩
  · exact False.elim (((List.isChain_cons_cons.mp chain).1 (Or.inr rfl)).1 rfl)
  · have behind : (first :: '+' :: (after ++ ')' :: rest)).IsChain Follows := by
      have whole : ('(' :: before ++ first :: '+' :: (after ++ ')' :: rest)).IsChain Follows := by simpa using chain
      exact whole.right_of_append
    obtain ⟨left, right⟩ := List.isChain_cons_cons.mp behind
    have other : first ≠ '+' := fun same => (left (Or.inl same)).1 rfl
    cases after with
    | nil => exact False.elim (((List.isChain_cons_cons.mp right).1 (Or.inl rfl)).2 rfl)
    | cons last after =>
      have next : last ≠ '+' := ((List.isChain_cons_cons.mp right).1 (Or.inl rfl)).1
      refine ⟨first, last, lettered first (by simp) other, lettered last (by simp) next, before, after, by simp⟩

private theorem exists_first_closing (text : Text) :
    ∃ front after, text ++ [')'] = front ++ ')' :: after ∧ ')' ∉ front ∧ front <+: text ∧
      (after = [] ∧ front = text ∨ front ++ [')'] <+: text) := by
  by_cases closing : ')' ∈ text
  · obtain ⟨front, rest, rfl, none⟩ := List.eq_append_cons_of_mem closing
    have piece : front ++ [')'] <+: front ++ ')' :: rest := ⟨rest, by simp⟩
    exact ⟨front, rest ++ [')'], by simp, none, List.prefix_append _ _, Or.inr piece⟩
  · exact ⟨text, [], rfl, closing, List.prefix_refl _, Or.inl ⟨rfl, rfl⟩⟩

private theorem exists_last_opening (front : Text) :
    ∃ before inner, '(' :: front = before ++ '(' :: inner ∧ '(' ∉ inner ∧ inner <:+ front ∧
      (before = [] ∧ inner = front ∨ '(' :: inner <:+ front) := by
  by_cases opening : '(' ∈ front
  · obtain ⟨inner, before, same, none⟩ := List.eq_append_cons_of_mem (List.mem_reverse.mpr opening)
    obtain rfl : front = before.reverse ++ '(' :: inner.reverse := by
      rw [← List.reverse_reverse front, same]
      simp
    have piece : '(' :: inner.reverse <:+ before.reverse ++ '(' :: inner.reverse := List.suffix_append _ _
    exact ⟨'(' :: before.reverse, inner.reverse, rfl, fun member => none (List.mem_reverse.mp member),
      (List.suffix_cons _ _).trans piece, Or.inr piece⟩
  · exact ⟨[], front, rfl, opening, List.suffix_refl _, Or.inl ⟨rfl, rfl⟩⟩

end Text

open Text

/-- An irreducible text with a `+` has a character in parentheses by itself, where one may think of a
further pair of parentheses around the text. -/
theorem Irreducible.exists_single {text : Text} (irreducible : Irreducible text) (filled : Filled text)
    (plus : '+' ∈ text) : ∃ c, isWord c = true ∧ ['(', c, ')'] <:+: '(' :: (text ++ [')']) := by
  obtain ⟨front, after, behind, noClosing, shorter, closed⟩ := exists_first_closing text
  obtain ⟨before, inner, ahead, noOpening, later, opened⟩ := exists_last_opening front
  have whole : '(' :: (text ++ [')']) = before ++ '(' :: (inner ++ ')' :: after) := by
    rw [behind, ← List.cons_append, ahead, List.append_assoc, List.cons_append]
  have inside : inner <:+: text := later.isInfix.trans shorter.isInfix
  have signs : ∀ c ∈ inner, isWord c = true ∨ c = '+' := by
    intro c member
    rcases filled.signs c (inside.subset member) with letter | sign | parenthesis
    · exact Or.inl letter
    · exact Or.inr sign
    · simp only [isParenthesis, Bool.or_eq_true, beq_iff_eq] at parenthesis
      rcases parenthesis with rfl | rfl
      · exact False.elim (noOpening member)
      · exact False.elim (noClosing (later.subset member))
  have chain : ('(' :: (inner ++ ')' :: after)).IsChain Follows := by
    have padded := filled.chain
    rw [whole] at padded
    exact padded.right_of_append
  have reduced : '+' ∉ inner := by
    intro sign
    obtain ⟨first, last, one, other, piece⟩ := exists_sum_of_plus signs chain sign
    exact irreducible.sum first last one other (piece.trans inside)
  have wordly : IsWordly inner := fun c member =>
    (signs c member).resolve_right fun sign => reduced (sign ▸ member)
  have short : ¬ 2 ≤ inner.length := by
    intro long
    rcases opened with ⟨_, rfl⟩ | piece
    · rcases closed with ⟨_, rfl⟩ | piece
      · exact reduced plus
      · exact irreducible.closed _ wordly long piece.isInfix
    · exact irreducible.opened inner wordly long (piece.isInfix.trans shorter.isInfix)
  have some : inner ≠ [] := by
    rintro rfl
    exact ((List.isChain_cons_cons.mp chain).1 (Or.inr rfl)).2 rfl
  have single : inner.length = 1 := by
    have := List.length_pos_iff.mpr some
    omega
  obtain ⟨c, rfl⟩ := List.length_eq_one_iff.mp single
  refine ⟨c, wordly c (by simp), before, after, ?_⟩
  rw [whole]
  simp

namespace Nested

variable {grade : Grade} {tree : Nested grade}

private theorem opening_follows (first : Char) : Follows first '(' := fun _ => by decide

private theorem ended_follows {last : Char} (ended : isWord last = true ∨ last = ')') (next : Char) :
    Follows last next := by
  rcases ended with letter | rfl
  · exact word_follows letter next
  · intro begins
    exact absurd begins (by decide)

theorem isChain_text (made : tree.Over fun c => isWord c = true) {first : Char} {rest : Text}
    (behind : ∀ last, isWord last = true ∨ last = ')' → (last :: rest).IsChain Follows) :
    (first :: (tree.text ++ rest)).IsChain Follows := by
  induction tree generalizing first rest with
  | letter c => exact (behind c (Or.inl made)).cons_cons (follows_word made first)
  | group inner ih =>
    rw [text, List.cons_append, List.append_assoc]
    refine (ih made ?_).cons_cons (opening_follows first)
    intro last ended
    exact (behind ')' (Or.inr rfl)).cons_cons (ended_follows ended ')')
  | factor only ih => exact ih made behind
  | times one others here there =>
    rw [text, List.append_assoc]
    exact here made.1 fun last _ => there made.2 behind
  | plus one others here there =>
    rw [text, List.append_assoc, List.cons_append]
    apply here made.1
    intro last ended
    exact (there made.2 behind).cons_cons (ended_follows ended '+')
  | term only ih => exact ih made behind
  | several inner ih => exact ih made behind

theorem filled_text (made : tree.Over fun c => isWord c = true) : Filled tree.text :=
  ⟨fun _ member => mem_text made member,
    isChain_text made fun _ ended => (List.isChain_singleton _).cons_cons (ended_follows ended ')')⟩

end Nested

/-- On a nested expression the sum phase succeeds or leaves a symbol in parentheses by itself, where
those around the whole text count. It succeeds if every `+` stands directly between letters, and on
level expressions with few `+`. -/
theorem reduceSums_nested {tree : Nested .sum} (lower : tree.Over fun c => c.isLower = true) (memory : GroupMemory) :
    (∀ stalled, reduceSums memory tree.text {} = .error stalled →
      ∃ c, isWord c = true ∧ ['(', c, ')'] <:+: '(' :: (stalled.residual ++ [')'])) ∧
    (Joined false tree.text ∨ tree.IsLevel ∧ tree.text.count '+' ≤ 25 →
      ∃ sums, reduceSums memory tree.text {} = .ok sums) := by
  constructor
  · intro stalled stopped
    have filled : Filled tree.text := Nested.filled_text (lower.mono fun c own => isWord_of_isAlpha (isAlpha_of_isLower own))
    have remembers := SumProgress.remembers_initial tree.text {}
    obtain ⟨scans, _, settles⟩ := SumProgress.settles_initial memory tree.text {}
    have still := settles.expression_invariant (fun present own some kept => kept.replaceAll present own some)
      remembers filled
    by_cases left : '+' ∈ ((SumProgress.initial tree.text {}).settle memory
        (SumProgress.roundLimit tree.text)).expression
    · obtain rfl := Except.error.inj (stopped.symm.trans (if_pos left))
      exact (settles.irreducible remembers left).exists_single still left
    · cases stopped.symm.trans (if_neg left)
  · rintro (joined | ⟨level, few⟩)
    · obtain ⟨_, _, _, _, answer⟩ := reduceSums_of_joined joined memory {}
      exact ⟨_, answer⟩
    · exact exists_reduceSums_level lower level few memory

/-- Sums three deep within a product. -/
theorem reduceSums_nested_three_deep :
    let innermost : Nested .several := .plus (.factor (.letter 'd')) (.term (.factor (.letter 'e')))
    let second : Nested .several := .plus (.factor (.letter 'c')) (.term (.factor (.group innermost)))
    let first : Nested .several := .plus (.factor (.letter 'a')) (.term (.factor (.letter 'b')))
    let outer : Nested .several := .plus (.factor (.group first)) (.term (.factor (.group second)))
    let tree : Nested .sum := .term (.times (.letter 'x') (.factor (.group outer)))
    tree.text = "x((a+b)+(c+(d+e)))".toList ∧ (tree.Over fun c => c.isLower = true) ∧ tree.IsLevel ∧
      tree.text.count '+' ≤ 25 ∧ ∃ sums, reduceSums .run tree.text {} = .ok sums := by
  intro innermost second first outer tree
  have lower : tree.Over fun c => c.isLower = true := by
    simp only [tree, outer, first, second, innermost, Nested.Over]
    decide
  have level : tree.IsLevel := by
    simp [tree, outer, first, second, innermost, Nested.IsLevel, Nested.LevelGroups, Nested.depths, Nested.depth,
      Aligned]
  have few : tree.text.count '+' ≤ 25 := by decide
  exact ⟨by decide, lower, level, few, (reduceSums_nested lower .run).2 (Or.inr ⟨level, few⟩)⟩

/-- The sum at the front of `a+b+(a+b)` is exchanged inside the parentheses as well, and the symbol by
itself is found only in front of a `+`. -/
theorem exists_nested_stalled :
    ∃ tree : Nested .sum, tree.text = "a+b+(a+b)".toList ∧ (tree.Over fun c => c.isLower = true) ∧
      ∀ memory, reduceSums memory tree.text {} = .error ⟨"A+(A)".toList⟩ := by
  let group : Nested .several := .plus (.factor (.letter 'a')) (.term (.factor (.letter 'b')))
  let tree : Nested .sum :=
    .several (.plus (.factor (.letter 'a'))
      (.several (.plus (.factor (.letter 'b')) (.term (.factor (.group group))))))
  have lower : tree.Over fun c => c.isLower = true := by
    simp only [tree, group, Nested.Over]
    decide
  refine ⟨tree, by decide, lower, ?_⟩
  intro memory
  cases memory <;> decide +kernel

end SumStar
