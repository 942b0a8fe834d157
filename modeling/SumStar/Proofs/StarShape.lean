import SumStar.Proofs.ShapeRests
import SumStar.Proofs.StarGroups

/-! The shape of a star group leaves a single rest, or none: a run that is broken off has a word character
behind it, where neither a parenthesis nor a star stands. So the recogniser, which does not go back,
takes what the preferred way through the shape takes. -/

namespace SumStar

open Text

namespace StarGroup

open Shape

/-- What has to stand behind the run of a group. -/
def ending : Shape :=
  sequence (optional (literal ')')) (literal '*')

/-- What is left of a text behind a piece that was taken from its front. -/
def restBehind (text : Text) (taken : Option Text) : List Text :=
  (taken.map fun piece => text.drop piece.length).toList

theorem restBehind_map_cons (c : Char) (rest : Text) (taken : Option Text) :
    restBehind (c :: rest) (taken.map (c :: ·)) = restBehind rest taken := by
  cases taken <;> rfl

theorem rests_ending_of_ne {c : Char} (closing : c ≠ ')') (star : c ≠ '*') (rest : Text) : ending.rests (c :: rest) = [] := by
  simp [ending, rests, rests_optional_of_ne closing, rests_literal, star]

theorem rests_ending {c : Char} (gap : isWord c = false) (rest : Text) :
    ending.rests (c :: rest) = restBehind (c :: rest) (tail? (c :: rest)) := by
  by_cases closing : c = ')'
  · subst closing
    cases rest with
    | nil => rfl
    | cons d rest =>
      by_cases star : d = '*'
      · subst star
        simp [ending, rests, rests_optional_self, rests_literal, restBehind, tail?]
      · simp [ending, rests, rests_optional_self, rests_literal, restBehind, tail?, star, isWord_closing]
  · by_cases star : c = '*'
    · subst star
      simp [ending, rests, rests_optional_of_ne, rests_literal, restBehind, tail?]
    · rw [rests_ending_of_ne closing star]
      simp [restBehind, tail?, closing, gap]

/-- Only the whole run has an ending behind it. -/
theorem rests_tail (text : Text) : (sequence (repeated word) ending).rests text = restBehind text (tail? text) := by
  induction text with
  | nil => rfl
  | cons c rest ih =>
    rw [rests] at ih ⊢
    cases letter : isWord c with
    | true =>
      have stopped := rests_ending_of_ne (ne_of_isWord letter isWord_closing) (ne_of_isWord letter isWord_star) rest
      rw [word, rests_repeated_cons, if_pos letter, List.flatMap_append, ← word, ih, List.flatMap_singleton, stopped,
        List.append_nil, tail?_cons letter, restBehind_map_cons]
    | false =>
      rw [word, rests_repeated_cons, if_neg (ne_true_of_eq_false letter), List.nil_append, List.flatMap_singleton,
        rests_ending letter]

theorem rests_run (text : Text) : (sequence (atLeastOnce word) ending).rests text = restBehind text (run? text) := by
  cases text with
  | nil => rfl
  | cons c rest =>
    have behind : (sequence (atLeastOnce word) ending).rests (c :: rest) =
        if isWord c then (sequence (repeated word) ending).rests rest else [] := by
      cases letter : isWord c <;> simp [atLeastOnce, rests, word, letter]
    rw [behind, rests_tail, run?]
    cases isWord c with
    | true => exact (restBehind_map_cons c rest (tail? rest)).symm
    | false => rfl

theorem rests_star (text : Text) : Shape.star.rests text = restBehind text (recognise text) := by
  have parts : ∀ text, Shape.star.rests text =
      ((optional (literal '(')).rests text).flatMap (sequence (atLeastOnce word) ending).rests := fun _ => rfl
  have runs : (sequence (atLeastOnce word) ending).rests = fun text => restBehind text (run? text) := funext rests_run
  rw [parts, runs]
  cases text with
  | nil => rfl
  | cons c rest =>
    by_cases opening : c = '('
    · subst opening
      have none : run? ('(' :: rest) = Option.none := by simp [run?, isWord_opening]
      rw [rests_optional_self, List.flatMap_cons, List.flatMap_singleton, none, recognise, restBehind_map_cons]
      exact List.append_nil _
    · rw [rests_optional_of_ne opening, List.flatMap_singleton, recognise]
      exact fun _ same => opening (List.cons.inj same).1

theorem take?_star (text : Text) : Shape.star.take? text = recognise text := by
  rw [take?, rests_star]
  cases found : recognise text with
  | none => rfl
  | some piece =>
    obtain ⟨_, rest, rfl, _⟩ := exists_of_recognise found
    simp [restBehind]

end StarGroup
end SumStar
