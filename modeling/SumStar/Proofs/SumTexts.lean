import SumStar.Proofs.SumGroups

/-! Sums of words in parentheses, as texts. Such a sum is found where it stands, split into the
summands it was written from, and changed summand by summand by an exchange of words. -/

namespace SumStar

open Text

variable {known wider : Char → Prop} {c : Char} {words target : List Text}
  {word rest : Text}

/-- A sum in its parentheses. -/
def sumText (words : List Text) : Text :=
  '(' :: (['+'].intercalate words ++ [')'])

theorem sumText_ne_nil (words : List Text) : sumText words ≠ [] :=
  List.cons_ne_nil _ _

/-- Summands are words of known letters, at least one of them, and none is empty. -/
structure IsSum (known : Char → Prop) (words : List Text) : Prop where
  any : words ≠ []
  present : ∀ word ∈ words, word ≠ []
  composed : ∀ word ∈ words, ∀ c ∈ word, known c

theorem IsSum.mono (sum : IsSum known words) (widened : ∀ c, known c → wider c) : IsSum wider words :=
  ⟨sum.any, sum.present, fun word member c inside => widened c (sum.composed word member c inside)⟩

theorem isSum_of_all {letters : Char → Bool} (any : words ≠ [])
    (checked : (words.all fun word => !word.isEmpty && word.all letters) = true) :
    IsSum (fun c => letters c = true) words := by
  refine ⟨any, ?_, ?_⟩
  · intro word member empty
    have own := List.all_eq_true.mp checked word member
    simp [empty] at own
  · intro word member
    have own := List.all_eq_true.mp checked word member
    exact List.all_eq_true.mp (Bool.and_eq_true_iff.mp own).2

theorem IsSum.map {change : Text → Text} (sum : IsSum known words)
    (kept : ∀ word, (∀ c ∈ word, known c) → ∀ c ∈ change word, known c)
    (filled : ∀ word, word ≠ [] → change word ≠ []) : IsSum known (words.map change) := by
  refine ⟨by simpa using sum.any, ?_, ?_⟩
  · intro word member
    obtain ⟨old, inside, rfl⟩ := List.mem_map.mp member
    exact filled old (sum.present old inside)
  · intro word member
    obtain ⟨old, inside, rfl⟩ := List.mem_map.mp member
    exact kept old (sum.composed old inside)

theorem intercalate_cons {sign : Char} (word : Text) (words : List Text) :
    [sign].intercalate (word :: words) = word ++ words.flatMap fun other => sign :: other := by
  induction words generalizing word with
  | nil => simp
  | cons next words ih => simp [ih next]

theorem mem_intercalate {sign : Char} (member : c ∈ [sign].intercalate words) :
    c = sign ∨ ∃ word ∈ words, c ∈ word := by
  cases words with
  | nil => cases member
  | cons word words =>
    rw [intercalate_cons, List.mem_append, List.mem_flatMap] at member
    rcases member with first | ⟨other, later, inside⟩
    · exact Or.inr ⟨word, by simp, first⟩
    · rcases List.mem_cons.mp inside with own | inside
      · exact Or.inl own
      · exact Or.inr ⟨other, by simp [later], inside⟩

theorem takeWhile_front {before after : Text} (foreign : c ∉ before) :
    (before ++ c :: after).takeWhile (· ≠ c) = before := by
  have all : ∀ d ∈ before, decide (d ≠ c) = true := fun d member =>
    decide_eq_true fun same => foreign (same ▸ member)
  rw [List.takeWhile_append_of_pos all]
  simp

namespace SumGroup

theorem linked_append {tail : Text} (wordly : IsWordly word) (linked : Linked tail) :
    Linked (word ++ tail) := by
  induction word with
  | nil => exact linked
  | cons c word ih => exact .word (wordly c (by simp)) (ih fun d member => wordly d (by simp [member]))

theorem linked_flatMap (wordly : ∀ word ∈ words, IsWordly word) (present : ∀ word ∈ words, word ≠ []) :
    Linked (words.flatMap fun word => '+' :: word) := by
  induction words with
  | nil => exact .nil
  | cons word words ih =>
    have later := ih (fun other member => wordly other (by simp [member]))
      (fun other member => present other (by simp [member]))
    have own := wordly word (by simp)
    obtain ⟨c, letters, rfl⟩ := List.exists_cons_of_ne_nil (present word (by simp))
    exact .plus (own c (by simp)) (linked_append (fun d member => own d (by simp [member])) later)

end SumGroup

section Texts

variable (wordly : ∀ c, known c → isWord c = true)
include wordly

theorem IsSum.notMem_word (sum : IsSum known words) (gap : isWord c = false) :
    ∀ word ∈ words, c ∉ word := by
  intro word member inside
  exact ne_of_isWord (wordly c (sum.composed word member c inside)) gap rfl

theorem IsSum.notMem (sum : IsSum known words) (gap : isWord c = false) (other : c ≠ '+') :
    c ∉ ['+'].intercalate words := by
  intro member
  rcases mem_intercalate member with plus | ⟨word, inside, here⟩
  · exact other plus
  · exact sum.notMem_word wordly gap word inside here

theorem IsSum.splitOn (sum : IsSum known words) : (['+'].intercalate words).splitOn '+' = words :=
  List.splitOn_intercalate '+' (sum.notMem_word wordly isWord_plus) sum.any

theorem eq_of_sumText_front (one : IsSum known target) (other : IsSum known words)
    (front : sumText target <+: sumText words ++ rest) : target = words := by
  obtain ⟨behind, same⟩ := front
  simp only [sumText, List.cons_append, List.append_assoc, List.nil_append] at same
  have inner := congrArg (List.takeWhile (· ≠ ')')) (List.cons.inj same).2
  rw [takeWhile_front (one.notMem wordly isWord_closing (by decide)),
    takeWhile_front (other.notMem wordly isWord_closing (by decide))] at inner
  rw [← one.splitOn wordly, inner, other.splitOn wordly]

/-- Between its parentheses a sum is a chain. -/
theorem IsSum.exists_chain (sum : IsSum known words) :
    ∃ c tail, ['+'].intercalate words = c :: tail ∧ isWord c = true ∧ SumGroup.Linked tail ∧
      (tail = [] → words = [[c]]) := by
  obtain ⟨word, others, rfl⟩ := List.exists_cons_of_ne_nil sum.any
  obtain ⟨c, letters, rfl⟩ := List.exists_cons_of_ne_nil (sum.present word (by simp))
  have own : ∀ other ∈ (c :: letters) :: others, IsWordly other := fun other member d inside =>
    wordly d (sum.composed other member d inside)
  have linked : SumGroup.Linked (others.flatMap fun other => '+' :: other) :=
    SumGroup.linked_flatMap (fun other member => own other (by simp [member]))
      (fun other member => sum.present other (by simp [member]))
  refine ⟨c, letters ++ others.flatMap fun other => '+' :: other, intercalate_cons _ _,
    own (c :: letters) (by simp) c (by simp),
    SumGroup.linked_append (fun d member => own (c :: letters) (by simp) d (by simp [member])) linked, ?_⟩
  intro empty
  obtain ⟨rfl, none⟩ := List.append_eq_nil_iff.mp empty
  cases others with
  | nil => rfl
  | cons other others => simp at none

theorem IsSum.piece (sum : IsSum known words) (several : 2 ≤ words.length) {opening closing : Text}
    (opens : opening = [] ∨ opening = ['(']) (closes : SumGroup.Closes closing rest) :
    SumGroup.Piece (opening ++ (['+'].intercalate words ++ closing)) rest := by
  obtain ⟨c, tail, inner, word, linked, single⟩ := sum.exists_chain wordly
  have long : tail ≠ [] := by
    intro empty
    simp [single empty] at several
  rw [inner]
  exact .chain opens word linked long closes

theorem sumText_injective (one : IsSum known target) (other : IsSum known words)
    (same : sumText target = sumText words) : target = words := by
  have front : sumText target <+: sumText words ++ [] := by
    rw [same]
    exact List.prefix_append _ _
  exact eq_of_sumText_front wordly one other front

theorem IsSum.plain (sum : IsSum known words) : ∀ c ∈ ['+'].intercalate words, isParenthesis c = false := by
  intro c member
  rcases mem_intercalate member with rfl | ⟨word, inside, here⟩
  · rfl
  · exact not_isParenthesis_of_isWord (wordly c (sum.composed word inside c here))

theorem alternatives_of_stripped {group : Text} (sum : IsSum known words)
    (stripped : withoutParentheses group = ['+'].intercalate words) : SumGroup.alternatives group = words := by
  rw [SumGroup.alternatives, stripped, sum.splitOn wordly, SumGroup.dropTrailingEmpty]
  rcases List.eq_nil_or_concat words with rfl | ⟨front, last, rfl⟩
  · rfl
  · have full : last.isEmpty = false := by simpa using sum.present last (by simp)
    simp [full]

theorem alternatives_sumText (sum : IsSum known words) : SumGroup.alternatives (sumText words) = words := by
  apply alternatives_of_stripped wordly sum
  rw [sumText, ← List.singleton_append, withoutParentheses_append, withoutParentheses_append,
    withoutParentheses_of_forall (sum.plain wordly)]
  simp [withoutParentheses, isParenthesis]

theorem alternatives_intercalate (sum : IsSum known words) :
    SumGroup.alternatives (['+'].intercalate words) = words :=
  alternatives_of_stripped wordly sum (withoutParentheses_of_forall (sum.plain wordly))

theorem alternatives_word (composed : ∀ c ∈ word, known c) (present : word ≠ []) :
    SumGroup.alternatives word = [word] := by
  have own : IsWordly word := fun c member => wordly c (composed c member)
  have plain : '+' ∉ word := own.notMem isWord_plus
  have full : word.isEmpty = false := by simpa using present
  simp [SumGroup.alternatives, own.withoutParentheses, List.splitOn_eq_singleton plain, SumGroup.dropTrailingEmpty, full]

/-- An exchange passes over a sum if another one stands at the front of its target. -/
theorem replaceAll_sumText {goal replacement : Text} (front : sumText target <+: goal) (one : IsSum known target)
    (other : IsSum known words) (differ : words ≠ target) (rest : Text) :
    replaceAll goal replacement (sumText words ++ rest) = sumText words ++ replaceAll goal replacement rest := by
  have absent : ¬ goal <+: sumText words ++ rest := fun found =>
    differ (eq_of_sumText_front wordly one other (front.trans found)).symm
  have inner : '(' ∉ ['+'].intercalate words ++ [')'] := by
    intro member
    rcases List.mem_append.mp member with inside | closing
    · exact other.notMem wordly isWord_opening (by decide) inside
    · exact absurd (List.mem_singleton.mp closing) (by decide)
  obtain ⟨suffix, rfl⟩ := front
  rw [sumText, sumText, List.cons_append, List.cons_append] at absent ⊢
  rw [replaceAll_cons_of_absent absent, replaceAll_append_of_notMem inner, List.cons_append]

end Texts

/-- A word is exchanged in every summand by itself. -/
theorem replaceAll_intercalate {replacement : Text} (present : word ≠ []) (foreign : '+' ∉ word)
    (words : List Text) :
    replaceAll word replacement (['+'].intercalate words) =
      ['+'].intercalate (words.map (replaceAll word replacement)) := by
  induction words with
  | nil => rfl
  | cons first words ih =>
    cases words with
    | nil => simp
    | cons second words =>
      rw [List.map_cons, List.map_cons, List.intercalate_cons_cons, List.intercalate_cons_cons,
        List.append_assoc, List.append_assoc, List.singleton_append, List.singleton_append,
        replaceAll_append_cons present foreign, ih, List.map_cons]

theorem replaceAll_word_sumText {replacement : Text} (present : word ≠ []) (own : IsWordly word)
    (words : List Text) (rest : Text) :
    replaceAll word replacement (sumText words ++ rest) =
      sumText (words.map (replaceAll word replacement)) ++ replaceAll word replacement rest := by
  have foreign : ∀ gap, isWord gap = false → gap ∉ word := fun _ => own.notMem
  have opened : replaceAll word replacement ('(' :: (['+'].intercalate words ++ ')' :: rest)) = _ :=
    replaceAll_append_cons present (foreign '(' isWord_opening) [] _
  rw [replaceAll_append_cons present (foreign ')' isWord_closing),
    replaceAll_intercalate present (foreign '+' isWord_plus)] at opened
  simpa [sumText, replaceAll_nil] using opened

end SumStar
