import SumStar.Text.Basic

/-! Texts mention symbols by their names. A mention is an upper-case letter with all the digits that
stand right behind it, whether or not a symbol of that name was ever handed out. -/

namespace SumStar.Text

def mentions : Text → List Text
  | [] => []
  | c :: rest => if c.isUpper then (c :: rest.takeWhile Char.isDigit) :: mentions rest else mentions rest

theorem exists_of_mem_mentions {text mention : Text} (member : mention ∈ mentions text) :
    ∃ c digits, mention = c :: digits ∧ c.isUpper = true ∧ c ∈ text ∧
      ∀ d ∈ digits, d.isDigit = true ∧ d ∈ text := by
  induction text with
  | nil => cases member
  | cons first rest ih =>
    have later : mention ∈ mentions rest →
        ∃ c digits, mention = c :: digits ∧ c.isUpper = true ∧ c ∈ first :: rest ∧
          ∀ d ∈ digits, d.isDigit = true ∧ d ∈ first :: rest := by
      intro behind
      obtain ⟨c, digits, same, upper, here, each⟩ := ih behind
      refine ⟨c, digits, same, upper, List.mem_cons_of_mem _ here, ?_⟩
      exact fun d inside => ⟨(each d inside).1, List.mem_cons_of_mem _ (each d inside).2⟩
    rw [mentions] at member
    split at member
    next upper =>
      rcases List.mem_cons.mp member with rfl | behind
      · refine ⟨first, _, rfl, upper, List.mem_cons_self, ?_⟩
        intro d inside
        refine ⟨?_, List.mem_cons_of_mem _ ((List.takeWhile_prefix _).subset inside)⟩
        exact List.all_eq_true.mp List.all_takeWhile d inside
      · exact later behind
    next => exact later member

end SumStar.Text
