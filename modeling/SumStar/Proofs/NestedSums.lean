import SumStar.Proofs.SumTexts
import SumStar.Proofs.Valuations

/-! Expressions in which sums stand within sums, without repetitions. They are trees whose grade
says which of them may stand where, so that every text of the notation has one of them and nothing
else has. The tree says what the text stands for and how deep its groups lie. -/

namespace SumStar

open Text

inductive Grade where
  | atom
  | product
  | several
  | sum
  deriving DecidableEq, Repr

/-- A sum has products as its summands, a product has atoms as its factors, and an atom is a letter
or a sum of several summands in parentheses. -/
inductive Nested : Grade → Type where
  | letter (c : Char) : Nested .atom
  | group (inner : Nested .several) : Nested .atom
  | factor (only : Nested .atom) : Nested .product
  | times (first : Nested .atom) (others : Nested .product) : Nested .product
  | plus (first : Nested .product) (others : Nested .sum) : Nested .several
  | term (only : Nested .product) : Nested .sum
  | several (inner : Nested .several) : Nested .sum

namespace Nested

variable {grade : Grade} {known wider : Char → Prop} {valuation : Valuation}

def text {grade : Grade} : Nested grade → Text
  | letter c => [c]
  | group inner => '(' :: (inner.text ++ [')'])
  | factor only => only.text
  | times first others => first.text ++ others.text
  | plus first others => first.text ++ '+' :: others.text
  | term only => only.text
  | several inner => inner.text

/-- The texts between the `+` that stand in no group. -/
def summands {grade : Grade} : Nested grade → List Text
  | letter c => [[c]]
  | group inner => [(group inner).text]
  | factor only => [only.text]
  | times first others => [first.text ++ others.text]
  | plus first others => first.text :: others.summands
  | term only => [only.text]
  | several inner => inner.summands

def Over {grade : Grade} (known : Char → Prop) : Nested grade → Prop
  | letter c => known c
  | group inner => inner.Over known
  | factor only => only.Over known
  | times first others => first.Over known ∧ others.Over known
  | plus first others => first.Over known ∧ others.Over known
  | term only => only.Over known
  | several inner => inner.Over known

def meaning {grade : Grade} (valuation : Valuation) : Nested grade → Language Char
  | letter c => valuation c
  | group inner => inner.meaning valuation
  | factor only => only.meaning valuation
  | times first others => first.meaning valuation * others.meaning valuation
  | plus first others => first.meaning valuation + others.meaning valuation
  | term only => only.meaning valuation
  | several inner => inner.meaning valuation

/-- How many groups lie within each other. -/
def depth {grade : Grade} : Nested grade → Nat
  | letter _ => 0
  | group inner => inner.depth + 1
  | factor only => only.depth
  | times first others => max first.depth others.depth
  | plus first others => max first.depth others.depth
  | term only => only.depth
  | several inner => inner.depth

theorem Over.mono {tree : Nested grade} (made : tree.Over known) (widened : ∀ c, known c → wider c) :
    tree.Over wider := by
  induction tree with
  | letter c => exact widened c made
  | group inner ih => exact ih made
  | factor only ih => exact ih made
  | times first others one other => exact ⟨one made.1, other made.2⟩
  | plus first others one other => exact ⟨one made.1, other made.2⟩
  | term only ih => exact ih made
  | several inner ih => exact ih made

theorem text_ne_nil (tree : Nested grade) : tree.text ≠ [] := by
  induction tree with
  | letter c => exact List.cons_ne_nil _ _
  | group inner _ => exact List.cons_ne_nil _ _
  | factor only ih => exact ih
  | times first others one _ => exact List.append_ne_nil_of_left_ne_nil one _
  | plus first others one _ => exact List.append_ne_nil_of_left_ne_nil one _
  | term only ih => exact ih
  | several inner ih => exact ih

theorem summands_ne_nil (tree : Nested grade) : tree.summands ≠ [] := by
  induction tree with
  | several inner ih => exact ih
  | _ => exact List.cons_ne_nil _ _

theorem text_eq_intercalate (tree : Nested grade) : tree.text = ['+'].intercalate tree.summands := by
  induction tree with
  | plus first others _ ih =>
    obtain ⟨word, words, same⟩ := List.exists_cons_of_ne_nil others.summands_ne_nil
    rw [text, summands, ih, same, List.intercalate_cons_cons]
    simp
  | several inner ih => exact ih
  | _ => simp [summands, text]

theorem text_group (inner : Nested .several) : (group inner).text = sumText inner.summands := by
  rw [text, text_eq_intercalate, sumText]

theorem plus_mem (inner : Nested .several) : '+' ∈ inner.text := by
  cases inner with
  | plus first others => exact List.mem_append_right _ List.mem_cons_self

theorem mem_text {tree : Nested grade} (made : tree.Over known) {c : Char} (member : c ∈ tree.text) :
    known c ∨ c = '+' ∨ isParenthesis c = true := by
  induction tree with
  | letter d => exact Or.inl (List.mem_singleton.mp member ▸ made)
  | group inner ih =>
    rcases List.mem_cons.mp member with rfl | behind
    · exact Or.inr (Or.inr rfl)
    · rcases List.mem_append.mp behind with inside | closing
      · exact ih made inside
      · exact Or.inr (Or.inr (List.mem_singleton.mp closing ▸ rfl))
  | factor only ih => exact ih made member
  | times first others one other => exact (List.mem_append.mp member).elim (one made.1) (other made.2)
  | plus first others one other =>
    rcases List.mem_append.mp member with left | right
    · exact one made.1 left
    · exact (List.mem_cons.mp right).elim (fun sign => Or.inr (Or.inl sign)) (other made.2)
  | term only ih => exact ih made member
  | several inner ih => exact ih made member

theorem meaning_congr {other : Valuation} {tree : Nested grade} (made : tree.Over known)
    (same : ∀ c, known c → valuation c = other c) : tree.meaning valuation = tree.meaning other := by
  induction tree with
  | letter c => exact same c made
  | group inner ih => exact ih made
  | factor only ih => exact ih made
  | times first others one another => rw [meaning, meaning, one made.1, another made.2]
  | plus first others one another => rw [meaning, meaning, one made.1, another made.2]
  | term only ih => exact ih made
  | several inner ih => exact ih made

/-- A text has no parenthesis, or its first one opens. -/
theorem parentheses_text {tree : Nested grade} (made : tree.Over fun c => isWord c = true) :
    (∀ c ∈ tree.text, isParenthesis c = false) ∨
      ∃ before after, tree.text = before ++ '(' :: after ∧ ∀ c ∈ before, isParenthesis c = false := by
  induction tree with
  | letter c => exact Or.inl fun d member => List.mem_singleton.mp member ▸ not_isParenthesis_of_isWord made
  | group inner _ => exact Or.inr ⟨[], _, rfl, by simp⟩
  | factor only ih => exact ih made
  | times first others one other =>
    rcases one made.1 with free | ⟨before, after, same, front⟩
    · rcases other made.2 with plain | ⟨before, after, same, front⟩
      · exact Or.inl fun c member => (List.mem_append.mp member).elim (free c) (plain c)
      · refine Or.inr ⟨first.text ++ before, after, by rw [text, same, List.append_assoc], ?_⟩
        exact fun c member => (List.mem_append.mp member).elim (free c) (front c)
    · exact Or.inr ⟨before, after ++ others.text, by rw [text, same, List.append_assoc]; rfl, front⟩
  | plus first others one other =>
    rcases one made.1 with free | ⟨before, after, same, front⟩
    · have sign : isParenthesis '+' = false := rfl
      rcases other made.2 with plain | ⟨before, after, same, front⟩
      · exact Or.inl fun c member => (List.mem_append.mp member).elim (free c)
          fun behind => (List.mem_cons.mp behind).elim (fun same => same ▸ sign) (plain c)
      · refine Or.inr ⟨first.text ++ '+' :: before, after, by rw [text, same]; simp, ?_⟩
        exact fun c member => (List.mem_append.mp member).elim (free c)
          fun behind => (List.mem_cons.mp behind).elim (fun same => same ▸ sign) (front c)
    · exact Or.inr ⟨before, _, by rw [text, same, List.append_assoc]; rfl, front⟩
  | term only ih => exact ih made
  | several inner ih => exact ih made

section Flat

theorem summands_atom (tree : Nested .atom) : tree.summands = [tree.text] := by
  cases tree <;> rfl

theorem summands_product (tree : Nested .product) : tree.summands = [tree.text] := by
  cases tree <;> rfl

theorem present_of_mem_summands {tree : Nested grade} : ∀ word ∈ tree.summands, word ≠ [] := by
  induction tree with
  | plus first others _ ih =>
    intro word member
    rcases List.mem_cons.mp member with rfl | later
    · exact first.text_ne_nil
    · exact ih word later
  | several inner ih => exact ih
  | letter c => exact List.forall_mem_singleton.mpr (letter c).text_ne_nil
  | group inner _ => exact List.forall_mem_singleton.mpr (group inner).text_ne_nil
  | factor only _ => exact List.forall_mem_singleton.mpr only.text_ne_nil
  | times first others _ _ => exact List.forall_mem_singleton.mpr (times first others).text_ne_nil
  | term only _ => exact List.forall_mem_singleton.mpr only.text_ne_nil

variable {tree : Nested grade}

/-- Without groups the summands are words. -/
theorem isSum_of_flat (made : tree.Over known) (flat : tree.depth = 0) : IsSum known tree.summands := by
  refine ⟨tree.summands_ne_nil, present_of_mem_summands, ?_⟩
  induction tree with
  | letter c =>
    intro word member d inside
    rw [List.mem_singleton.mp member, List.mem_singleton] at inside
    exact inside ▸ made
  | group inner _ => cases flat
  | factor only ih =>
    have own := ih made flat
    rwa [summands_atom] at own
  | times first others one other =>
    obtain ⟨left, right⟩ := Nat.max_eq_zero_iff.mp flat
    have here := one made.1 left
    have there := other made.2 right
    rw [summands_atom] at here
    rw [summands_product] at there
    intro word member c inside
    rw [List.mem_singleton.mp member] at inside
    exact (List.mem_append.mp inside).elim (here _ (by simp) c) (there _ (by simp) c)
  | plus first others one other =>
    obtain ⟨left, right⟩ := Nat.max_eq_zero_iff.mp flat
    have here := one made.1 left
    rw [summands_product] at here
    intro word member
    rcases List.mem_cons.mp member with rfl | later
    · exact here _ (by simp)
    · exact other made.2 right word later
  | term only ih =>
    have own := ih made flat
    rwa [summands_product] at own
  | several inner ih => exact ih made flat

theorem meaning_of_flat (flat : tree.depth = 0) : tree.meaning valuation = valuation.sum tree.summands := by
  induction tree with
  | letter c => simp [meaning, summands]
  | group inner _ => cases flat
  | factor only ih =>
    have own := ih flat
    rwa [summands_atom] at own
  | times first others one other =>
    obtain ⟨left, right⟩ := Nat.max_eq_zero_iff.mp flat
    rw [meaning, one left, other right, summands_atom, summands_product]
    simp [summands]
  | plus first others one other =>
    obtain ⟨left, right⟩ := Nat.max_eq_zero_iff.mp flat
    rw [meaning, one left, other right, summands_product, Valuation.sum_singleton, summands, Valuation.sum_cons]
  | term only ih =>
    have own := ih flat
    rwa [summands_product] at own
  | several inner ih => exact ih flat

/-- A group shows by its parentheses and by a `+` between them. -/
theorem depth_eq_zero {sign : Char} (own : sign = '(' ∨ sign = '+') (absent : sign ∉ tree.text) : tree.depth = 0 := by
  induction tree with
  | letter c => rfl
  | group inner _ =>
    rcases own with rfl | rfl
    · exact False.elim (absent List.mem_cons_self)
    · exact False.elim (absent (List.mem_cons_of_mem _ (List.mem_append_left _ inner.plus_mem)))
  | factor only ih => exact ih absent
  | times first others one other =>
    have left := one fun member => absent (List.mem_append_left _ member)
    have right := other fun member => absent (List.mem_append_right _ member)
    rw [depth, left, right]
    rfl
  | plus first others one other =>
    have left := one fun member => absent (List.mem_append_left _ member)
    have right := other fun member => absent (List.mem_append_right _ (List.mem_cons_of_mem _ member))
    rw [depth, left, right]
    rfl
  | term only ih => exact ih absent
  | several inner ih => exact ih absent

end Flat

end Nested
end SumStar
