import SumStar.Text.Basic

/-! Replacing every occurrence of a text by another. Occurrences are taken from left to right and
do not overlap; what is put in is not searched again. -/

namespace SumStar.Text

/-- Drops the characters of an occurrence that are still to be passed, then goes on looking. -/
def replaceAfter (target replacement : Text) : Nat → Text → Text
  | _, [] => []
  | skipped + 1, _ :: rest => replaceAfter target replacement skipped rest
  | 0, c :: rest =>
    if target.isPrefixOf (c :: rest) then
      replacement ++ replaceAfter target replacement (target.length - 1) rest
    else
      c :: replaceAfter target replacement 0 rest

/-- The target is meant to be non-empty; the empty one would be found in front of every character. -/
def replaceAll (target replacement text : Text) : Text :=
  replaceAfter target replacement 0 text

theorem replaceAfter_eq_drop (target replacement : Text) (skipped : Nat) (text : Text) :
    replaceAfter target replacement skipped text =
      replaceAll target replacement (text.drop skipped) := by
  induction skipped generalizing text with
  | zero => rfl
  | succ skipped ih =>
    cases text with
    | nil => rfl
    | cons c rest => exact ih rest

theorem replaceAll_nil (target replacement : Text) : replaceAll target replacement [] = [] :=
  rfl

theorem replaceAll_append_of_ne_nil {target : Text} (present : target ≠ [])
    (replacement rest : Text) :
    replaceAll target replacement (target ++ rest) =
      replacement ++ replaceAll target replacement rest := by
  cases target with
  | nil => exact absurd rfl present
  | cons c tail =>
    have found : (c :: tail).isPrefixOf (c :: (tail ++ rest)) = true :=
      List.isPrefixOf_iff_prefix.mpr ⟨rest, rfl⟩
    simp only [replaceAll, List.cons_append, replaceAfter, found, ↓reduceIte]
    rw [replaceAfter_eq_drop]
    simp [replaceAll]

theorem replaceAll_cons_of_absent {target : Text} {c : Char} {rest : Text}
    (absent : ¬ target <+: c :: rest) (replacement : Text) :
    replaceAll target replacement (c :: rest) = c :: replaceAll target replacement rest := by
  have missed : target.isPrefixOf (c :: rest) = false := by
    cases found : target.isPrefixOf (c :: rest) with
    | false => rfl
    | true => exact absurd (List.isPrefixOf_iff_prefix.mp found) absent
  simp [replaceAll, replaceAfter, missed]

end SumStar.Text
