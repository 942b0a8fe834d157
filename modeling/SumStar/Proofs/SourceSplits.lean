import Mathlib.Data.List.TakeWhile
import SumStar.Source

/-! Sources taken apart. The first line feed of a content ends the terminals, and the expression is all
that stands behind it but for the blanks at its two ends. Only a content without a line feed is no
source. Trimming finds the one text without blanks at its ends that the blanks were put around. -/

namespace SumStar

open Text

variable {content text : Text} {source : Source}

namespace Text

variable {left right : Text}

theorem exists_trimStart (text : Text) :
    ∃ left, text = left ++ trimStart text ∧ ∀ c ∈ left, isBlank c = true :=
  ⟨text.takeWhile isBlank, List.takeWhile_append_dropWhile.symm, List.all_eq_true.mp List.all_takeWhile⟩

theorem exists_trimEnd (text : Text) :
    ∃ right, text = trimEnd text ++ right ∧ ∀ c ∈ right, isBlank c = true := by
  obtain ⟨right, back, blank⟩ := exists_trimStart text.reverse
  refine ⟨right.reverse, ?_, fun c member => blank c (List.mem_reverse.mp member)⟩
  rw [trimEnd, ← List.reverse_append, ← back, List.reverse_reverse]

theorem exists_trim (text : Text) :
    ∃ left right, text = left ++ trim text ++ right ∧ ∀ c ∈ left ++ right, isBlank c = true := by
  obtain ⟨left, front, before⟩ := exists_trimStart text
  obtain ⟨right, back, behind⟩ := exists_trimEnd (trimStart text)
  refine ⟨left, right, ?_, ?_⟩
  · rw [List.append_assoc, trim, ← back]
    exact front
  · intro c member
    exact (List.mem_append.mp member).elim (before c) (behind c)

/-- No blank stands at either end. -/
structure IsTrimmed (text : Text) : Prop where
  first : ∀ c, text.head? = some c → isBlank c = false
  last : ∀ c, text.getLast? = some c → isBlank c = false

theorem first_trimStart (text : Text) : ∀ c, (trimStart text).head? = some c → isBlank c = false := by
  intro c leading
  have stopped := List.head?_dropWhile_not isBlank text
  change (text.dropWhile isBlank).head? = some c at leading
  rw [leading] at stopped
  exact stopped

theorem trimStart_of_first (first : ∀ c, text.head? = some c → isBlank c = false) : trimStart text = text := by
  cases text with
  | nil => rfl
  | cons c rest => exact List.dropWhile_cons_of_neg (by simp [first c rfl])

theorem isTrimmed_trim (text : Text) : IsTrimmed (trim text) := by
  constructor
  case first =>
    intro c leading
    obtain ⟨right, split, _⟩ := exists_trimEnd (trimStart text)
    have front : trimStart text = trim text ++ right := split
    apply first_trimStart text
    rw [front, List.head?_append, leading, Option.some_or]
  case last =>
    intro c ending
    apply first_trimStart (trimStart text).reverse
    rwa [trim, trimEnd, List.getLast?_reverse] at ending

/-- Trimming takes the blanks around a text that has none at its ends. -/
theorem IsTrimmed.trim_eq (trimmed : IsTrimmed text) (blank : ∀ c ∈ left ++ right, isBlank c = true) :
    trim (left ++ text ++ right) = text := by
  have before : ∀ c ∈ left, isBlank c = true := fun c member => blank c (List.mem_append_left right member)
  have behind : ∀ c ∈ right.reverse, isBlank c = true := fun c member =>
    blank c (List.mem_append_right left (List.mem_reverse.mp member))
  have backwards : trimStart text.reverse = text.reverse := by
    apply trimStart_of_first
    intro c leading
    exact trimmed.last c (List.head?_reverse ▸ leading)
  cases text with
  | nil =>
    have gone : trimStart (left ++ [] ++ right) = [] := by
      apply List.dropWhile_eq_nil_iff.mpr
      simpa using blank
    rw [trim, gone]
    rfl
  | cons c rest =>
    have front : trimStart (left ++ c :: rest ++ right) = c :: rest ++ right := by
      rw [List.append_assoc, trimStart, List.dropWhile_append_of_pos before]
      exact trimStart_of_first trimmed.first
    rw [trim, front, trimEnd, List.reverse_append, trimStart, List.dropWhile_append_of_pos behind]
    exact (congrArg List.reverse backwards).trans (List.reverse_reverse _)

/-- Blanks around a text do not change what is left of it. -/
theorem trim_append_blank (blank : ∀ c ∈ left ++ right, isBlank c = true) (text : Text) :
    trim (left ++ text ++ right) = trim text := by
  obtain ⟨front, back, split, inner⟩ := exists_trim text
  have whole : left ++ text ++ right = (left ++ front) ++ trim text ++ (back ++ right) := by
    calc left ++ text ++ right = left ++ (front ++ trim text ++ back) ++ right := by rw [← split]
      _ = (left ++ front) ++ trim text ++ (back ++ right) := by simp only [List.append_assoc]
  rw [whole]
  apply (isTrimmed_trim text).trim_eq
  intro c member
  simp only [List.mem_append] at member blank inner
  rcases member with (outside | inside) | (inside | outside)
  · exact blank c (Or.inl outside)
  · exact inner c (Or.inl inside)
  · exact inner c (Or.inr inside)
  · exact blank c (Or.inr outside)

theorem trim_of_not_isBlank (visible : ∀ c ∈ text, isBlank c = false) : trim text = text := by
  have trimmed : IsTrimmed text :=
    ⟨fun c leading => visible c (List.mem_of_head? leading), fun c ending => visible c (List.mem_of_getLast? ending)⟩
  have same := @IsTrimmed.trim_eq text [] [] trimmed (by simp)
  rwa [List.nil_append, List.append_nil] at same

theorem firstWord_split (text : Text) : FirstWord text (firstWord text) := by
  obtain ⟨left, split, blank⟩ := exists_trimStart text
  have run : trimStart text = firstWord text ++ (trimStart text).dropWhile (fun c => !isBlank c) :=
    List.takeWhile_append_dropWhile.symm
  refine ⟨left, (trimStart text).dropWhile fun c => !isBlank c, ?_, blank, fun c member => ?_, fun c first => ?_,
    fun none => ?_⟩
  · rw [List.append_assoc, ← run]
    exact split
  · simpa using List.all_eq_true.mp (List.all_takeWhile (p := fun c => !isBlank c)) c member
  · have stopped := List.head?_dropWhile_not (fun c => !isBlank c) (trimStart text)
    rw [first] at stopped
    simpa using stopped
  · rw [none, List.nil_append] at run
    cases rest : trimStart text with
    | nil => rfl
    | cons c others =>
      have visible := first_trimStart text c (by rw [rest]; rfl)
      rw [firstWord, rest, List.takeWhile_cons_of_pos (by simp [visible])] at none
      cases none

/-- A text has only one first word. -/
theorem FirstWord.eq_firstWord {word : Text} (first : FirstWord text word) : word = firstWord text := by
  obtain ⟨left, right, rfl, before, visible, behind, whole⟩ := first
  have trimmed : trimStart (left ++ word ++ right) = word ++ right := by
    rw [List.append_assoc, trimStart, List.dropWhile_append_of_pos before]
    apply trimStart_of_first
    intro c leading
    cases word with
    | nil => rw [whole rfl] at leading; cases leading
    | cons first rest => exact visible c (List.mem_of_head? leading)
  have run : right.takeWhile (fun c => !isBlank c) = [] := by
    cases right with
    | nil => rfl
    | cons c rest => exact List.takeWhile_cons_of_neg (by simp [behind c rfl])
  rw [firstWord, trimmed, List.takeWhile_append_of_pos (by simpa using visible), run, List.append_nil]

end Text

namespace Source

theorem ofText_append {terminals expression : Text} (line : '\n' ∉ terminals) :
    ofText (terminals ++ '\n' :: expression) = .ok ⟨withoutCarriageReturn terminals, Text.trim expression⟩ := by
  have passed : ∀ c ∈ terminals, decide (c ≠ '\n') = true := fun c member =>
    decide_eq_true fun same => line (same ▸ member)
  rw [ofText, List.dropWhile_append_of_pos passed, List.takeWhile_append_of_pos passed]
  simp

theorem ofText_of_notMem (absent : '\n' ∉ content) : ofText content = .error .missingSeparator := by
  have none : content.dropWhile (· ≠ '\n') = [] := by
    apply List.dropWhile_eq_nil_iff.mpr
    intro c member
    simpa using fun same : c = '\n' => absent (same ▸ member)
  rw [ofText, none]

theorem exists_ofText (present : '\n' ∈ content) : ∃ source, ofText content = .ok source := by
  obtain ⟨line, rest, rfl, foreign⟩ := List.eq_append_cons_of_mem present
  exact ⟨_, ofText_append foreign⟩

theorem exists_line (read : ofText content = .ok source) :
    ∃ line rest, content = line ++ '\n' :: rest ∧ '\n' ∉ line ∧ source = ⟨withoutCarriageReturn line, Text.trim rest⟩ := by
  by_cases present : '\n' ∈ content
  · obtain ⟨line, rest, rfl, foreign⟩ := List.eq_append_cons_of_mem present
    exact ⟨line, rest, rfl, foreign, (Except.ok.inj ((ofText_append foreign).symm.trans read)).symm⟩
  · cases (ofText_of_notMem present).symm.trans read

theorem exists_split (read : ofText content = .ok source) :
    ∃ line left right, content = line ++ '\n' :: (left ++ source.expression ++ right) ∧ '\n' ∉ line ∧
      source.terminals = withoutCarriageReturn line ∧ ∀ c ∈ left ++ right, isBlank c = true := by
  obtain ⟨line, rest, rfl, foreign, rfl⟩ := exists_line read
  obtain ⟨left, right, split, blank⟩ := exists_trim rest
  exact ⟨line, left, right, congrArg (line ++ '\n' :: ·) split, foreign, rfl, blank⟩

end Source
end SumStar
