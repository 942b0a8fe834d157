import SumStar.Proofs.FlatExpressions

/-! The sum groups of a flat expression are its sums and its longer words between them. Each of them
can be exchanged for a letter, and the expression stays flat. -/

namespace SumStar

open Text SumGroup

variable {known wider : Char → Prop} {c : Char} {words : List Text} {group rest : Text}

namespace Flat

/-- A group that is found in a flat expression, with its alternatives. -/
inductive IsGroup (known : Char → Prop) : Text → List Text → Prop where
  | sum {words : List Text} : IsSum known words → IsGroup known (sumText words) words
  | word {word : Text} : 2 ≤ word.length → (∀ c ∈ word, known c) → IsGroup known word [word]

theorem IsGroup.mono (found : IsGroup known group words) (widened : ∀ c, known c → wider c) :
    IsGroup wider group words := by
  cases found with
  | sum sum => exact .sum (sum.mono widened)
  | word long letters => exact .word long fun c member => widened c (letters c member)

theorem IsGroup.isSum (found : IsGroup known group words) : IsSum known words := by
  cases found with
  | sum sum => exact sum
  | word long letters =>
    have present : group ≠ [] := List.length_pos_iff.mp (by omega)
    exact ⟨by simp, by simpa using present, by simpa using letters⟩

section Search

variable (wordly : ∀ c, known c → isWord c = true)
include wordly

theorem IsGroup.alternatives (found : IsGroup known group words) : SumGroup.alternatives group = words := by
  cases found with
  | sum sum => exact alternatives_sumText wordly sum
  | word long letters => exact alternatives_word wordly letters (List.length_pos_iff.mp (by omega))

/-- A group may be exchanged for any letter that stands for its alternatives. -/
theorem IsGroup.exists_exchange (found : IsGroup known group words) {flat : Flat} (composed : flat.Over known)
    (letter : known c) :
    ∃ changed : Flat, replaceAll group [c] flat.text = changed.text ∧ changed.Over known ∧
      ∀ valuation : Valuation, valuation c = valuation.sum words →
        changed.meaning valuation = flat.meaning valuation := by
  cases found with
  | sum sum =>
    exact ⟨flat.exchange words c, replaceAll_exchange wordly composed sum, composed.exchange letter words,
      fun valuation same => meaning_exchange same flat⟩
  | word long letters =>
    have present : group ≠ [] := List.length_pos_iff.mp (by omega)
    refine ⟨flat.respell (replaceAll group [c]), replaceAll_respell wordly long letters flat, ?_, ?_⟩
    · apply composed.respell
      · intro word own d member
        rcases mem_of_mem_replaceAll present member with new | old
        · exact List.mem_singleton.mp new ▸ letter
        · exact own d old
      · intro word filled
        exact replaceAll_ne_nil present (List.cons_ne_nil c []) filled
    · intro valuation same
      apply meaning_respell
      intro word
      apply Valuation.spell_replaceAll present
      rw [Valuation.spell_singleton, same, Valuation.sum_singleton]

theorem mem_findAll_sumText (sum : IsSum known words) (apart : rest.head? = some '+' → 2 ≤ words.length)
    (member : group ∈ findAll (sumText words ++ rest)) : group = sumText words ∨ group ∈ findAll rest := by
  obtain ⟨c, tail, inner, word, linked, single⟩ := IsSum.exists_chain wordly sum
  by_cases long : tail = []
  · rw [single long, sumText, List.intercalate_singleton] at member
    have other : ∀ behind, ')' :: rest ≠ ')' :: '+' :: behind := by
      intro behind same
      have several := apart (congrArg List.head? (List.cons.inj same).2)
      simp [single long] at several
    have closing : Stops (')' :: rest) := stops_of_gap isWord_closing (by decide) rest
    have letter : c ≠ '(' := ne_of_isWord word isWord_opening
    simp only [List.cons_append, List.nil_append] at member
    rw [findAll_cons (recognise_opened c closing other), findAll_cons (recognise_of_stops letter closing),
      findAll_cons (recognise_of_gap isWord_closing (by decide) rest)] at member
    exact Or.inr member
  · have stands : Piece (sumText words) rest := by
      rw [sumText, inner]
      exact .chain (Or.inr rfl) word linked long .parenthesis
    rw [findAll_append stands] at member
    exact List.mem_cons.mp member

theorem mem_findAll_word {word : Text} (letters : ∀ c ∈ word, known c) (stops : Stops rest)
    (other : rest.head? ≠ some ')') (member : group ∈ findAll (word ++ rest)) :
    (group = word ∧ 2 ≤ word.length) ∨ group ∈ findAll rest := by
  have own := isWordly_of_known wordly letters
  match word, own with
  | [], _ => exact Or.inr member
  | [c], own =>
    have letter : c ≠ '(' := ne_of_isWord (own c (by simp)) isWord_opening
    rw [List.singleton_append, findAll_cons (recognise_of_stops letter stops)] at member
    exact Or.inr member
  | c :: d :: word, own =>
    have linked : Linked (d :: word) := by
      simpa using linked_append (fun e member => own e (by simp [member])) .nil
    have stands : Piece (c :: d :: word) rest := by
      simpa using Piece.chain (Or.inl rfl) (own c (by simp)) linked (List.cons_ne_nil d word) (.nothing stops other)
    rw [findAll_append stands] at member
    exact (List.mem_cons.mp member).imp_left fun same => ⟨same, by simp⟩

theorem Tail.isGroup_of_mem_findAll {tail : Tail} (composed : tail.Over known) (member : group ∈ findAll tail.text) :
    ∃ words, IsGroup known group words := by
  induction tail with
  | last word =>
    rw [Tail.text, ← List.append_nil word] at member
    rcases mem_findAll_word wordly composed (by constructor <;> simp) (by simp) member with ⟨rfl, long⟩ | none
    · exact ⟨_, .word long composed⟩
    · cases none
  | sum word words rest ih =>
    obtain ⟨letters, sum, several, behind⟩ := composed
    have stops : Stops (sumText words ++ rest.text) := stops_of_gap isWord_opening (by decide) _
    rcases mem_findAll_word wordly letters stops (by simp [sumText]) member with ⟨rfl, long⟩ | later
    · exact ⟨_, .word long letters⟩
    · rcases mem_findAll_sumText wordly sum (fun _ => several) later with rfl | later
      · exact ⟨_, .sum sum⟩
      · exact ih behind later

theorem isGroup_of_mem_findAll {flat : Flat} (composed : flat.Over known) (member : group ∈ findAll flat.text) :
    ∃ words, IsGroup known group words := by
  obtain ⟨starred, tail⟩ := flat
  obtain ⟨pieces, behind⟩ := composed
  induction starred with
  | nil => exact Tail.isGroup_of_mem_findAll wordly behind member
  | cons piece starred ih =>
    have rest : ∀ other ∈ starred, other.Over known := fun other inside => pieces other (by simp [inside])
    have own := pieces piece (by simp)
    simp only [text, List.flatMap_cons, List.append_assoc] at member ih
    cases piece with
    | letter c =>
      have stops : Stops ('*' :: (starred.flatMap Starred.text ++ tail.text)) :=
        stops_of_gap isWord_star (by decide) _
      have letters : ∀ d ∈ [c], known d := fun d inside => List.mem_singleton.mp inside ▸ own
      rcases mem_findAll_word wordly letters stops (by simp) member with ⟨_, long⟩ | found
      · simp at long
      · rw [findAll_cons (recognise_of_gap isWord_star (by decide) _)] at found
        exact ih found rest behind
    | sum words =>
      rw [Starred.text_sum, List.append_assoc] at member
      rcases mem_findAll_sumText wordly own (by simp) member with rfl | found
      · exact ⟨_, .sum own⟩
      · rw [List.singleton_append, findAll_cons (recognise_of_gap isWord_star (by decide) _)] at found
        exact ih found rest behind

end Search

end Flat
end SumStar
