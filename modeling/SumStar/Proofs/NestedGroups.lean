import Mathlib.Data.List.Chain
import SumStar.Proofs.NestedSums

/-! What the search finds in a nested expression in which of two neighbours one always lies as deep
as their sum. As long as a group is left in such a sum no two of its letters stand side by side, so
no chain can begin there, and exactly the groups of words are found. -/

namespace SumStar

open Text

open SumGroup

/-- Of two neighbours one lies as deep as the sum. -/
def Aligned (top : Nat) (depths : List Nat) : Prop :=
  depths.IsChain fun one next => one = top ∨ next = top

theorem Aligned.lower {top : Nat} {depths : List Nat} (aligned : Aligned top depths) :
    Aligned (top - 1) (depths.map (· - 1)) := by
  refine List.isChain_map_of_isChain _ ?_ aligned
  rintro one next (rfl | rfl)
  · exact Or.inl rfl
  · exact Or.inr rfl

namespace Nested

variable {grade : Grade} {tree : Nested grade} {top : Nat} {rest : Text}

/-- How deep the atoms lie that stand in no group. -/
def depths {grade : Grade} : Nested grade → List Nat
  | letter _ => [0]
  | group inner => [inner.depth + 1]
  | factor only => only.depths
  | times first others => first.depths ++ others.depths
  | plus first others => first.depths ++ others.depths
  | term only => only.depths
  | several inner => inner.depths

def LevelGroups {grade : Grade} : Nested grade → Prop
  | letter _ => True
  | group inner => inner.LevelGroups ∧ Aligned inner.depth inner.depths
  | factor only => only.LevelGroups
  | times first others => first.LevelGroups ∧ others.LevelGroups
  | plus first others => first.LevelGroups ∧ others.LevelGroups
  | term only => only.LevelGroups
  | several inner => inner.LevelGroups

/-- In every sum, that of the whole expression included, of two neighbours one lies as deep as the
sum, whether they are two factors or a `+` stands between them. -/
def IsLevel (tree : Nested grade) : Prop :=
  tree.LevelGroups ∧ Aligned tree.depth tree.depths

/-- The summands of the groups that no other group stands in, from left to right. -/
def flats {grade : Grade} : Nested grade → List (List Text)
  | letter _ => []
  | group inner => if inner.depth = 0 then [inner.summands] else inner.flats
  | factor only => only.flats
  | times first others => first.flats ++ others.flats
  | plus first others => first.flats ++ others.flats
  | term only => only.flats
  | several inner => inner.flats

theorem depths_ne_nil (tree : Nested grade) : tree.depths ≠ [] := by
  induction tree with
  | letter c => exact List.cons_ne_nil _ _
  | group inner _ => exact List.cons_ne_nil _ _
  | factor only ih => exact ih
  | times first others one _ => exact List.append_ne_nil_of_left_ne_nil one _
  | plus first others one _ => exact List.append_ne_nil_of_left_ne_nil one _
  | term only ih => exact ih
  | several inner ih => exact ih

/-- What does not lie flat at the front is a group. -/
theorem exists_opening {front : Nat} (first : tree.depths.head? = some front) (deep : 0 < front) :
    ∃ rest, tree.text = '(' :: rest := by
  induction tree with
  | letter c =>
    cases first
    cases deep
  | group inner _ => exact ⟨_, rfl⟩
  | factor only ih => exact ih first
  | times one others ih _ =>
    rw [depths, List.head?_append_of_ne_nil _ one.depths_ne_nil] at first
    obtain ⟨rest, same⟩ := ih first
    exact ⟨rest ++ others.text, by rw [text, same]; rfl⟩
  | plus one others ih _ =>
    rw [depths, List.head?_append_of_ne_nil _ one.depths_ne_nil] at first
    obtain ⟨rest, same⟩ := ih first
    exact ⟨rest ++ '+' :: others.text, by rw [text, same]; rfl⟩
  | term only ih => exact ih first
  | several inner ih => exact ih first

theorem exists_opening_of_aligned {one : List Nat} (deep : 0 < top) (aligned : Aligned top (one ++ tree.depths))
    (letter : one.getLast? = some 0) : ∃ rest, tree.text = '(' :: rest := by
  obtain ⟨front, others, same⟩ := List.exists_cons_of_ne_nil tree.depths_ne_nil
  have first : tree.depths.head? = some front := congrArg List.head? same
  obtain ⟨_, _, junction⟩ := List.isChain_append.mp aligned
  rcases junction 0 letter front first with none | reached
  · exact absurd none (Nat.ne_of_lt deep)
  · exact exists_opening first (reached ▸ deep)

private theorem stops_opening (rest : Text) : Stops ('(' :: rest) :=
  stops_of_gap isWord_opening (by decide) rest

private theorem stops_plus_opening (rest : Text) : Stops ('+' :: '(' :: rest) := by
  constructor
  · intro c behind same
    rw [← (List.cons.inj same).1, isWord_plus]
  · intro c behind same
    rw [← (List.cons.inj (List.cons.inj same).2).1, isWord_opening]

/-- The parenthesis of a group with groups in it begins no chain. -/
theorem recognise_group {inner : Nested .several} (deep : 0 < inner.depth)
    (aligned : Aligned inner.depth inner.depths) (rest : Text) : recognise ('(' :: (inner.text ++ rest)) = none := by
  cases inner with
  | plus first others =>
    cases first with
    | factor only =>
      cases only with
      | group inner => exact recognise_opening_gap isWord_opening _
      | letter c =>
        obtain ⟨behind, same⟩ := exists_opening_of_aligned deep aligned rfl
        have apart : recognise ('(' :: c :: '+' :: '(' :: (behind ++ rest)) = none :=
          recognise_opened c (stops_plus_opening _) (by simp)
        simpa [text, same] using apart
    | times one product =>
      cases one with
      | group inner => exact recognise_opening_gap isWord_opening _
      | letter c =>
        have front : Aligned _ ([0] ++ product.depths) := (List.isChain_append.mp aligned).1
        obtain ⟨behind, same⟩ := exists_opening_of_aligned deep front rfl
        have apart : recognise ('(' :: c :: '(' :: (behind ++ '+' :: (others.text ++ rest))) = none :=
          recognise_opened c (stops_opening _) (by simp)
        simpa [text, same] using apart

theorem two_le_length_summands (inner : Nested .several) : 2 ≤ inner.summands.length := by
  cases inner with
  | plus first others =>
    have := List.length_pos_iff.mpr others.summands_ne_nil
    rw [summands, List.length_cons]
    omega

/-- The search finds the flat groups of a sum that is not flat itself. -/
theorem findAll_text (made : tree.Over fun c => isWord c = true) (level : tree.LevelGroups) (deep : 0 < top)
    (aligned : Aligned top tree.depths) (stops : tree.depths.getLast? = some 0 → Stops rest) :
    findAll (tree.text ++ rest) = tree.flats.map sumText ++ findAll rest := by
  induction tree generalizing top rest with
  | letter c =>
    have other : c ≠ '(' := ne_of_isWord made isWord_opening
    exact findAll_cons (recognise_of_stops other (stops rfl))
  | group inner ih =>
    by_cases flat : inner.depth = 0
    · have sum : IsSum (fun c => isWord c = true) inner.summands := isSum_of_flat made flat
      have stands : Piece (sumText inner.summands) rest :=
        sum.piece (fun c word => word) inner.two_le_length_summands (Or.inr rfl) .parenthesis
      rw [text_group, flats, if_pos flat]
      exact findAll_append stands
    · have below : 0 < inner.depth := Nat.pos_of_ne_zero flat
      have opening := recognise_group below level.2 (')' :: rest)
      have closing : recognise (')' :: rest) = none := recognise_of_gap isWord_closing (by decide) rest
      rw [text, List.cons_append, List.append_assoc, List.singleton_append, findAll_cons opening,
        ih made level.1 below level.2 fun _ => stops_of_gap isWord_closing (by decide) rest, findAll_cons closing,
        flats, if_neg flat]
  | factor only ih => exact ih made level deep aligned stops
  | times first others one other =>
    obtain ⟨left, right, junction⟩ := List.isChain_append.mp aligned
    rw [depths, List.getLast?_append_of_ne_nil _ others.depths_ne_nil] at stops
    rw [text, List.append_assoc, one made.1 level.1 deep left _, other made.2 level.2 deep right stops, flats,
      List.map_append, List.append_assoc]
    intro letter
    obtain ⟨behind, same⟩ := exists_opening_of_aligned deep aligned letter
    rw [same]
    exact stops_opening _
  | plus first others one other =>
    obtain ⟨left, right, junction⟩ := List.isChain_append.mp aligned
    rw [depths, List.getLast?_append_of_ne_nil _ others.depths_ne_nil] at stops
    have sign : recognise ('+' :: (others.text ++ rest)) = none := recognise_of_gap isWord_plus (by decide) _
    rw [text, List.append_assoc, one made.1 level.1 deep left _, List.cons_append, findAll_cons sign,
      other made.2 level.2 deep right stops, flats, List.map_append, List.append_assoc]
    intro letter
    obtain ⟨behind, same⟩ := exists_opening_of_aligned deep aligned letter
    rw [same]
    exact stops_plus_opening _
  | term only ih => exact ih made level deep aligned stops
  | several inner ih => exact ih made level deep aligned stops

/-- A flat group has letters only and at least two summands. -/
theorem exists_of_mem_flats {known : Char → Prop} (made : tree.Over known) {words : List Text}
    (member : words ∈ tree.flats) :
    ∃ inner : Nested .several, inner.Over known ∧ inner.depth = 0 ∧ words = inner.summands := by
  induction tree with
  | letter c => cases member
  | group inner ih =>
    by_cases flat : inner.depth = 0
    · rw [flats, if_pos flat, List.mem_singleton] at member
      exact ⟨inner, made, flat, member⟩
    · rw [flats, if_neg flat] at member
      exact ih made member
  | factor only ih => exact ih made member
  | times first others one other => exact (List.mem_append.mp member).elim (one made.1) (other made.2)
  | plus first others one other => exact (List.mem_append.mp member).elim (one made.1) (other made.2)
  | term only ih => exact ih made member
  | several inner ih => exact ih made member

theorem flats_ne_nil (deep : 0 < tree.depth) : tree.flats ≠ [] := by
  induction tree with
  | letter c => cases deep
  | group inner ih =>
    by_cases flat : inner.depth = 0
    · rw [flats, if_pos flat]
      exact List.cons_ne_nil _ _
    · rw [flats, if_neg flat]
      exact ih (Nat.pos_of_ne_zero flat)
  | factor only ih => exact ih deep
  | times first others one other =>
    rcases lt_sup_iff.mp deep with left | right
    · exact List.append_ne_nil_of_left_ne_nil (one left) _
    · exact List.append_ne_nil_of_right_ne_nil _ (other right)
  | plus first others one other =>
    rcases lt_sup_iff.mp deep with left | right
    · exact List.append_ne_nil_of_left_ne_nil (one left) _
    · exact List.append_ne_nil_of_right_ne_nil _ (other right)
  | term only ih => exact ih deep
  | several inner ih => exact ih deep

/-- A sum of several words by itself is found as a whole. -/
theorem findAll_flat {known : Char → Prop} (wordly : ∀ c, known c → isWord c = true) {tree : Nested .sum}
    (made : tree.Over known) (flat : tree.depth = 0) (plus : '+' ∈ tree.text) : findAll tree.text = [tree.text] := by
  have sum : IsSum known tree.summands := isSum_of_flat made flat
  have several : 2 ≤ tree.summands.length := by
    cases tree with
    | several inner => exact inner.two_le_length_summands
    | term only =>
      have word := sum.notMem_word wordly isWord_plus only.text (List.mem_singleton_self _)
      exact False.elim (word plus)
  have stands : Piece tree.text [] := by
    have bare := sum.piece wordly several (Or.inl rfl) (.nothing stops_nil (by simp))
    rwa [List.nil_append, List.append_nil, ← text_eq_intercalate] at bare
  have whole := findAll_append stands
  rwa [List.append_nil] at whole

end Nested
end SumStar
