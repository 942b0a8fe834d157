import SumStar.Text.Basic

/-! Searching a text for the pieces a recogniser accepts. A recogniser looks at the front of a
text and answers the piece it takes from there; the search tries it at each place from left to
right and goes on behind the piece that was found. -/

namespace SumStar.Text

def findAfter (recognise : Text → Option Text) : Nat → Text → List Text
  | _, [] => []
  | skipped + 1, _ :: rest => findAfter recognise skipped rest
  | 0, c :: rest =>
    match recognise (c :: rest) with
    | some piece => piece :: findAfter recognise (piece.length - 1) rest
    | none => findAfter recognise 0 rest

/-- The pieces found, in the order of the text, repeated ones included. -/
def findAll (recognise : Text → Option Text) (text : Text) : List Text :=
  findAfter recognise 0 text

theorem findAfter_eq_drop (recognise : Text → Option Text) (skipped : Nat) (text : Text) :
    findAfter recognise skipped text = findAll recognise (text.drop skipped) := by
  induction skipped generalizing text with
  | zero => rfl
  | succ skipped ih =>
    cases text with
    | nil => rfl
    | cons c rest => exact ih rest

theorem findAll_cons_of_some {recognise : Text → Option Text} {c : Char} {rest piece : Text}
    (found : recognise (c :: rest) = some piece) :
    findAll recognise (c :: rest) =
      piece :: findAll recognise (rest.drop (piece.length - 1)) := by
  simp only [findAll, findAfter, found]
  rw [findAfter_eq_drop]
  rfl

theorem findAll_cons_of_none {recognise : Text → Option Text} {c : Char} {rest : Text}
    (missed : recognise (c :: rest) = none) :
    findAll recognise (c :: rest) = findAll recognise rest := by
  simp only [findAll, findAfter, missed]

/-- Every piece is one the recogniser takes from some place of the text. -/
theorem exists_recognise_of_mem_findAll {recognise : Text → Option Text} {text piece : Text}
    (member : piece ∈ findAll recognise text) :
    ∃ place, place <:+ text ∧ recognise place = some piece := by
  induction size : text.length using Nat.strongRecOn generalizing text with
  | ind size ih =>
    cases text with
    | nil => simp [findAll, findAfter] at member
    | cons c rest =>
      cases found : recognise (c :: rest) with
      | none =>
        rw [findAll_cons_of_none found] at member
        obtain ⟨place, suffix, recognised⟩ := ih rest.length (by simp at size; omega) member rfl
        exact ⟨place, suffix.trans (List.suffix_cons c rest), recognised⟩
      | some taken =>
        rw [findAll_cons_of_some found, List.mem_cons] at member
        cases member with
        | inl same => exact ⟨c :: rest, List.suffix_refl _, same ▸ found⟩
        | inr later =>
          obtain ⟨place, suffix, recognised⟩ :=
            ih (rest.drop (taken.length - 1)).length
              (by simp only [List.length_drop]; simp at size; omega) later rfl
          exact ⟨place,
            (suffix.trans (List.drop_suffix _ _)).trans (List.suffix_cons c rest), recognised⟩

end SumStar.Text
