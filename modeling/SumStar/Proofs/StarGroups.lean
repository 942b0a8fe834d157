import SumStar.Group.Star
import SumStar.Proofs.SumTexts

/-! What the search for star groups finds: words in front of a star, with or without parentheses
around them, and nothing in a word that no star follows. -/

namespace SumStar.StarGroup

open Text

variable {c : Char} {word rest : Text}

theorem tail?_cons (letter : isWord c = true) (rest : Text) : tail? (c :: rest) = (tail? rest).map (c :: ·) := by
  have star : c ≠ '*' := ne_of_isWord letter isWord_star
  have closing : c ≠ ')' := ne_of_isWord letter isWord_closing
  rw [tail?, if_pos letter]
  · exact star
  · exact fun behind same _ => closing same

theorem tail?_append (own : IsWordly word) (rest : Text) : tail? (word ++ rest) = (tail? rest).map (word ++ ·) := by
  induction word with
  | nil => simp
  | cons c word ih =>
    rw [List.cons_append, tail?_cons (own c (by simp)), ih fun d member => own d (by simp [member]), Option.map_map]
    rfl

theorem run?_append (own : IsWordly word) (present : word ≠ []) (rest : Text) :
    run? (word ++ rest) = (tail? rest).map (word ++ ·) := by
  obtain ⟨c, letters, rfl⟩ := List.exists_cons_of_ne_nil present
  have letter : isWord c = true := own c (by simp)
  rw [← tail?_append own, List.cons_append, tail?_cons letter, run?, if_pos letter]

theorem recognise_append (own : IsWordly word) (present : word ≠ []) (rest : Text) :
    recognise (word ++ rest) = (tail? rest).map (word ++ ·) := by
  obtain ⟨c, letters, rfl⟩ := List.exists_cons_of_ne_nil present
  rw [← run?_append own present]
  unfold recognise
  split
  next same => exact False.elim (ne_of_isWord (own c (by simp)) isWord_opening (List.cons.inj same).1)
  next => rfl

theorem recognise_opening (own : IsWordly word) (present : word ≠ []) (rest : Text) :
    recognise ('(' :: (word ++ rest)) = (tail? rest).map fun ending => '(' :: (word ++ ending) := by
  rw [recognise, run?_append own present, Option.map_map]
  rfl

theorem findAll_of_isWordly (own : IsWordly word) : findAll word = [] := by
  induction word with
  | nil => rfl
  | cons c word ih =>
    have missed : recognise (c :: word) = none := by
      have whole := recognise_append own (List.cons_ne_nil c word) []
      rwa [List.append_nil, tail?, Option.map_none] at whole
    exact (findAll_cons_of_none missed).trans (ih fun d member => own d (by simp [member]))

theorem body_of_withoutParentheses {group : Text} (own : IsWordly word)
    (stripped : withoutParentheses group = word ++ ['*']) : body group = word := by
  have foreign : '*' ∉ word := own.notMem isWord_star
  rw [body, stripped]
  exact takeWhile_front foreign

theorem body_append (own : IsWordly word) : body (word ++ ['*']) = word := by
  apply body_of_withoutParentheses own
  rw [withoutParentheses_append, own.withoutParentheses]
  rfl

theorem body_opening (own : IsWordly word) : body ('(' :: (word ++ [')', '*'])) = word := by
  apply body_of_withoutParentheses own
  rw [← List.singleton_append, withoutParentheses_append, withoutParentheses_append, own.withoutParentheses]
  rfl

/-- A piece that the search takes: a word with a star behind it, and parentheses where they stand. -/
inductive Piece : Text → Text → Prop where
  | run {opening word closing : Text} : opening = [] ∨ opening = ['('] → word ≠ [] → IsWordly word →
      closing = [] ∨ closing = [')'] → Piece (opening ++ word ++ closing ++ ['*']) word

theorem exists_of_tail? {text ending : Text} (found : tail? text = some ending) :
    ∃ word closing rest, text = ending ++ rest ∧ ending = word ++ closing ++ ['*'] ∧ IsWordly word ∧
      (closing = [] ∨ closing = [')']) := by
  fun_induction tail? text generalizing ending with
  | case1 rest =>
    cases found
    exact ⟨[], [], rest, rfl, rfl, by simp [IsWordly], Or.inl rfl⟩
  | case2 rest =>
    cases found
    exact ⟨[], [')'], rest, rfl, rfl, by simp [IsWordly], Or.inr rfl⟩
  | case3 c rest _ _ letter ih =>
    obtain ⟨inner, behind, rfl⟩ := Option.map_eq_some_iff.mp found
    obtain ⟨word, closing, rest, rfl, rfl, own, closes⟩ := ih behind
    refine ⟨c :: word, closing, rest, rfl, rfl, ?_, closes⟩
    intro d member
    rcases List.mem_cons.mp member with rfl | later
    · exact letter
    · exact own d later
  | case4 => cases found
  | case5 => cases found

theorem exists_of_run? {text run : Text} (found : run? text = some run) :
    ∃ word closing rest, text = run ++ rest ∧ run = word ++ closing ++ ['*'] ∧ word ≠ [] ∧ IsWordly word ∧
      (closing = [] ∨ closing = [')']) := by
  cases text with
  | nil => cases found
  | cons c text =>
    simp only [run?] at found
    split at found
    next letter =>
      obtain ⟨ending, behind, rfl⟩ := Option.map_eq_some_iff.mp found
      obtain ⟨word, closing, rest, rfl, rfl, own, closes⟩ := exists_of_tail? behind
      refine ⟨c :: word, closing, rest, rfl, rfl, List.cons_ne_nil _ _, ?_, closes⟩
      intro d member
      rcases List.mem_cons.mp member with rfl | later
      · exact letter
      · exact own d later
    next => cases found

theorem exists_of_recognise {text piece : Text} (found : recognise text = some piece) :
    ∃ word rest, text = piece ++ rest ∧ Piece piece word := by
  unfold recognise at found
  split at found
  next behind =>
    obtain ⟨run, inner, rfl⟩ := Option.map_eq_some_iff.mp found
    obtain ⟨word, closing, rest, rfl, rfl, present, own, closes⟩ := exists_of_run? inner
    exact ⟨word, rest, rfl, .run (Or.inr rfl) present own closes⟩
  next =>
    obtain ⟨word, closing, rest, rfl, rfl, present, own, closes⟩ := exists_of_run? found
    exact ⟨word, rest, rfl, .run (Or.inl rfl) present own closes⟩

theorem recognise_front {text piece : Text} (found : recognise text = some piece) : piece ≠ [] ∧ piece <+: text := by
  obtain ⟨word, rest, same, stands⟩ := exists_of_recognise found
  refine ⟨?_, rest, same.symm⟩
  cases stands
  simp

theorem infix_of_mem_findAll {text piece : Text} (member : piece ∈ findAll text) : piece <:+: text := by
  obtain ⟨place, behind, found⟩ := Text.exists_recognise_of_mem_findAll member
  exact (recognise_front found).2.isInfix.trans behind.isInfix

theorem exists_piece_of_mem_findAll {text piece : Text} (member : piece ∈ findAll text) : ∃ word, Piece piece word := by
  obtain ⟨place, _, found⟩ := Text.exists_recognise_of_mem_findAll member
  obtain ⟨word, _, _, stands⟩ := exists_of_recognise found
  exact ⟨word, stands⟩

theorem Piece.withoutParentheses {piece : Text} (stands : Piece piece word) :
    withoutParentheses piece = word ++ ['*'] := by
  cases stands with
  | @run opening word closing opens _ own closes =>
    have opened : Text.withoutParentheses opening = [] := by rcases opens with rfl | rfl <;> rfl
    have closed : Text.withoutParentheses closing = [] := by rcases closes with rfl | rfl <;> rfl
    rw [withoutParentheses_append, withoutParentheses_append, withoutParentheses_append, opened, closed,
      own.withoutParentheses]
    simp [Text.withoutParentheses, isParenthesis]

theorem Piece.isWordly {piece : Text} (stands : Piece piece word) : IsWordly word := by
  cases stands with
  | run _ _ own _ => exact own

theorem Piece.word_subset {piece : Text} (stands : Piece piece word) : word ⊆ piece := by
  cases stands with
  | run _ _ _ _ => exact fun c member => by simp [member]

theorem Piece.word_ne_nil {piece : Text} (stands : Piece piece word) : word ≠ [] := by
  cases stands with
  | run _ present _ _ => exact present

theorem Piece.ne_nil {piece : Text} (stands : Piece piece word) : piece ≠ [] := by
  cases stands
  simp

theorem Piece.body_eq {piece : Text} (stands : Piece piece word) : body piece = word :=
  body_of_withoutParentheses stands.isWordly stands.withoutParentheses

end SumStar.StarGroup
