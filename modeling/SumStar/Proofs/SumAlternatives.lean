import Mathlib.Data.List.Basic
import SumStar.Proofs.SumTexts

/-! The alternatives of a group, put together again. A chain of words is given back but for its
parentheses; only of a single word in front of `+` the sign is lost. -/

namespace SumStar

open Text

variable {group word : Text} {c : Char}

theorem mem_intercalate_of_mem {words : List Text} {word : Text} (inside : word ∈ words) (member : c ∈ word) :
    c ∈ ['+'].intercalate words := by
  cases words with
  | nil => cases inside
  | cons first words =>
    rw [intercalate_cons, List.mem_append, List.mem_flatMap]
    rcases List.mem_cons.mp inside with rfl | later
    · exact Or.inl member
    · exact Or.inr ⟨word, later, List.mem_cons_of_mem _ member⟩

theorem intercalate_concat (words : List Text) (last : Text) :
    ['+'].intercalate (words ++ [last]) = (words.flatMap fun word => word ++ ['+']) ++ last := by
  induction words with
  | nil => simp
  | cons word words ih =>
    have some : words ++ [last] ≠ [] := List.append_ne_nil_of_right_ne_nil words (List.cons_ne_nil last [])
    obtain ⟨next, others, same⟩ := List.exists_cons_of_ne_nil some
    rw [List.cons_append, same, List.intercalate_cons_cons, ← same, ih]
    simp

namespace SumGroup

theorem mem_of_mem_alternatives {body : Text} (inside : body ∈ alternatives group)
    (member : c ∈ body) : c ∈ group := by
  have piece : body ∈ (withoutParentheses group).splitOn '+' := by
    rw [alternatives, dropTrailingEmpty, List.mem_reverse] at inside
    exact List.mem_reverse.mp ((List.dropWhile_suffix _).subset inside)
  have whole := mem_intercalate_of_mem piece member
  rw [List.intercalate_splitOn] at whole
  exact (List.mem_filter.mp whole).1

theorem Linked.getLast? {tail : Text} (linked : Linked tail) {c : Char} (word : isWord c = true) :
    ((c :: tail).getLast?).any isWord = true := by
  induction linked generalizing c with
  | nil => exact word
  | word next _ ih => exact ih next
  | plus next _ ih => exact ih next

/-- A text that does not end in `+` leaves no empty piece behind its last `+`. -/
theorem dropTrailingEmpty_splitOn {text : Text} (last : text.getLast?.any isWord = true) :
    dropTrailingEmpty (text.splitOn '+') = text.splitOn '+' := by
  have whole : ['+'].intercalate (text.splitOn '+') = text := List.intercalate_splitOn '+'
  generalize text.splitOn '+' = pieces at whole
  rcases List.eq_nil_or_concat' pieces with rfl | ⟨front, final, rfl⟩
  · rfl
  · have full : final ≠ [] := by
      intro empty
      rw [empty, intercalate_concat, List.append_nil] at whole
      rcases List.eq_nil_or_concat' front with rfl | ⟨front, word, rfl⟩
      · rw [← whole] at last
        cases last
      · rw [← whole, List.flatMap_append] at last
        simp [isWord_plus] at last
    have present : final.isEmpty = false := by simpa using full
    simp [dropTrailingEmpty, present]

theorem Linked.composed {tail : Text} (linked : Linked tail) : ∀ c ∈ tail, isWord c = true ∨ c = '+' := by
  induction linked with
  | nil => simp
  | word word _ ih => exact List.forall_mem_cons.mpr ⟨Or.inl word, ih⟩
  | plus word _ ih => exact List.forall_mem_cons.mpr ⟨Or.inr rfl, List.forall_mem_cons.mpr ⟨Or.inl word, ih⟩⟩

theorem Linked.withoutParentheses {tail : Text} (linked : Linked tail) : withoutParentheses tail = tail := by
  apply withoutParentheses_of_forall
  intro c member
  rcases linked.composed c member with word | rfl
  · exact not_isParenthesis_of_isWord word
  · rfl

theorem withoutParentheses_chain {opening tail closing rest : Text} (opens : opening = [] ∨ opening = ['('])
    (word : isWord c = true) (linked : Linked tail) (closes : Closes closing rest) :
    Text.withoutParentheses (opening ++ (c :: tail ++ closing)) = c :: tail := by
  have opened : Text.withoutParentheses opening = [] := by rcases opens with rfl | rfl <;> rfl
  have closed : Text.withoutParentheses closing = [] := by cases closes <;> rfl
  rw [withoutParentheses_append, withoutParentheses_append, opened, closed, List.append_nil, List.nil_append]
  exact (Linked.word word linked).withoutParentheses

theorem intercalate_alternatives {group rest : Text} (stands : Piece group rest) (apart : ¬ [')', '+'] <:+: group) :
    ['+'].intercalate (alternatives group) = withoutParentheses group := by
  cases stands with
  | @single c rest _ => exact False.elim (apart ⟨['(', c], [], rfl⟩)
  | chain opens word linked _ closes =>
    have stripped := withoutParentheses_chain opens word linked closes
    rw [alternatives, stripped, dropTrailingEmpty_splitOn (linked.getLast? word), List.intercalate_splitOn]

/-- A chain is a sum of the words that stand between its signs. -/
theorem Linked.exists_words {tail : Text} (linked : Linked tail) (word : isWord c = true) :
    ∃ words, IsSum (fun c => isWord c = true) words ∧ ['+'].intercalate words = c :: tail := by
  induction linked generalizing c with
  | nil => exact ⟨[[c]], ⟨by simp, by simp, by simpa using word⟩, rfl⟩
  | @word d tail next _ ih =>
    obtain ⟨words, sum, same⟩ := ih next
    obtain ⟨first, others, rfl⟩ := List.exists_cons_of_ne_nil sum.any
    obtain ⟨own, later⟩ := List.forall_mem_cons.mp sum.composed
    refine ⟨(c :: first) :: others, ⟨by simp, ?_, ?_⟩, ?_⟩
    · exact List.forall_mem_cons.mpr ⟨by simp, (List.forall_mem_cons.mp sum.present).2⟩
    · exact List.forall_mem_cons.mpr ⟨List.forall_mem_cons.mpr ⟨word, own⟩, later⟩
    · rw [← same, intercalate_cons, intercalate_cons, List.cons_append]
  | @plus d tail next _ ih =>
    obtain ⟨words, sum, same⟩ := ih next
    refine ⟨[c] :: words, ⟨by simp, ?_, ?_⟩, ?_⟩
    · exact List.forall_mem_cons.mpr ⟨by simp, sum.present⟩
    · exact List.forall_mem_cons.mpr ⟨by simpa using word, sum.composed⟩
    · obtain ⟨first, others, rfl⟩ := List.exists_cons_of_ne_nil sum.any
      rw [List.intercalate_cons_cons, same]
      rfl

theorem withoutParentheses_single (word : isWord c = true) :
    Text.withoutParentheses ['(', c, ')', '+'] = [c, '+'] := by
  have own : Text.withoutParentheses [c] = [c] := IsWordly.withoutParentheses (by simpa [IsWordly] using word)
  have cut : Text.withoutParentheses (['('] ++ ([c] ++ [')', '+'])) = [c, '+'] := by
    rw [withoutParentheses_append, withoutParentheses_append, own]
    rfl
  exact cut

theorem alternatives_single (word : isWord c = true) : alternatives ['(', c, ')', '+'] = [[c]] := by
  have foreign : ∀ piece ∈ [[c], []], '+' ∉ piece := by
    simpa using Ne.symm (ne_of_isWord word isWord_plus)
  have pieces : (['+'].intercalate [[c], []]).splitOn '+' = [[c], []] :=
    List.splitOn_intercalate '+' foreign (List.cons_ne_nil _ _)
  rw [alternatives, withoutParentheses_single word]
  exact congrArg dropTrailingEmpty pieces

theorem Piece.isSum_alternatives {rest : Text} (stands : Piece group rest) :
    IsSum (fun c => isWord c = true) (alternatives group) := by
  cases stands with
  | chain opens word linked _ closes =>
    obtain ⟨words, sum, same⟩ := linked.exists_words word
    rwa [alternatives_of_stripped (fun _ => id) sum ((withoutParentheses_chain opens word linked closes).trans same.symm)]
  | @single c rest word =>
    rw [alternatives_single word]
    exact ⟨by simp, by simp, by simpa using word⟩

end SumGroup

end SumStar
