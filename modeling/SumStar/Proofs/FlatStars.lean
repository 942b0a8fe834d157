import SumStar.Proofs.FlatExpressions
import SumStar.Proofs.StarGroups

/-! What is left of a flat expression without `+`: repeated letters and words at the front and a
word behind them. The repeated pieces are the star groups, and an exchange of one of them leaves
all others as they are. -/

namespace SumStar

open Computability Text

theorem plus_mem_sumText {words : List Text} (several : 2 ≤ words.length) : '+' ∈ sumText words := by
  match words, several with
  | first :: second :: words, _ => simp [sumText, intercalate_cons]

namespace Flat

variable {known : Char → Prop} {c : Char} {group body word rest : Text} {valuation : Valuation}

/-- A piece that repeats a word. -/
inductive Repeats (known : Char → Prop) : Starred → Text → Prop where
  | letter {c : Char} : known c → Repeats known (.letter c) [c]
  | word {word : Text} : word ≠ [] → (∀ c ∈ word, known c) → Repeats known (.sum [word]) word

theorem Starred.exists_repeats {piece : Starred} (composed : piece.Over known) (absent : '+' ∉ piece.text) :
    ∃ body, Repeats known piece body := by
  cases piece with
  | letter c => exact ⟨[c], .letter composed⟩
  | sum words =>
    match words, composed with
    | [], composed => exact False.elim (composed.any rfl)
    | [word], composed => exact ⟨word, .word (composed.present word (by simp)) (composed.composed word (by simp))⟩
    | first :: second :: words, composed =>
      exact False.elim (absent (List.mem_append_left _ (plus_mem_sumText (by simp))))

theorem Tail.eq_last {tail : Tail} (composed : tail.Over known) (absent : '+' ∉ tail.text) :
    ∃ word, tail = .last word ∧ ∀ c ∈ word, known c := by
  cases tail with
  | last word => exact ⟨word, rfl, composed⟩
  | sum word words rest =>
    have inside : '+' ∈ sumText words ++ rest.text := List.mem_append_left _ (plus_mem_sumText composed.2.2.1)
    exact False.elim (absent (List.mem_append_right word inside))

theorem Repeats.composed {piece : Starred} (repeats : Repeats known piece body) : ∀ c ∈ body, known c := by
  cases repeats with
  | letter letter => exact fun d member => List.mem_singleton.mp member ▸ letter
  | word _ letters => exact letters

theorem Repeats.present {piece : Starred} (repeats : Repeats known piece body) : body ≠ [] := by
  cases repeats with
  | letter _ => exact List.cons_ne_nil _ _
  | word present _ => exact present

theorem Repeats.meaning {piece : Starred} (repeats : Repeats known piece body) (valuation : Valuation) :
    piece.meaning valuation = (valuation.spell body)∗ := by
  cases repeats with
  | letter _ => simp [Starred.meaning]
  | word _ _ => simp [Starred.meaning]

section Search

variable (wordly : ∀ c, known c → isWord c = true)
include wordly

theorem Repeats.findAll {piece : Starred} (repeats : Repeats known piece body) (rest : Text) :
    StarGroup.findAll (piece.text ++ rest) = piece.text :: StarGroup.findAll rest := by
  have own := isWordly_of_known wordly repeats.composed
  have present := repeats.present
  have filled : piece.text ≠ [] := by cases repeats <;> exact List.cons_ne_nil _ _
  apply Text.findAll_append filled
  cases repeats with
  | letter _ => exact StarGroup.recognise_append own present ('*' :: rest)
  | word _ _ =>
    have found := StarGroup.recognise_opening own present (')' :: '*' :: rest)
    simpa [Starred.text_sum, sumText, StarGroup.tail?] using found

theorem Repeats.body_eq {piece : Starred} (repeats : Repeats known piece body) : StarGroup.body piece.text = body := by
  have own := isWordly_of_known wordly repeats.composed
  cases repeats with
  | letter _ => exact StarGroup.body_append own
  | word _ _ => simpa [Starred.text_sum, sumText] using StarGroup.body_opening own

theorem findAll_starred {starred : List Starred} (repeats : ∀ piece ∈ starred, ∃ body, Repeats known piece body)
    (letters : ∀ c ∈ word, known c) :
    StarGroup.findAll (starred.flatMap Starred.text ++ word) = starred.map Starred.text := by
  induction starred with
  | nil => exact StarGroup.findAll_of_isWordly (isWordly_of_known wordly letters)
  | cons piece starred ih =>
    obtain ⟨body, first⟩ := repeats piece (by simp)
    rw [List.flatMap_cons, List.append_assoc, first.findAll wordly, ih fun other member => repeats other (by simp [member]),
      List.map_cons]

end Search

/-- A repeated piece during the star phase, before or after its exchange. -/
inductive Block where
  | pending (piece : Starred)
  | done (c : Char)

namespace Block

def text : Block → Text
  | pending piece => piece.text
  | done c => [c]

def meaning (valuation : Valuation) : Block → Language Char
  | pending piece => piece.meaning valuation
  | done c => valuation c

def Over (known : Char → Prop) : Block → Prop
  | pending piece => ∃ body, Repeats known piece body
  | done c => isWord c = true

def settle (group : Text) (c : Char) : Block → Block
  | pending piece => if piece.text = group then done c else pending piece
  | done d => done d

theorem settle_self {piece : Starred} (same : piece.text = group) (c : Char) :
    (pending piece).settle group c = done c :=
  if_pos same

theorem settle_of_ne {piece : Starred} (differ : piece.text ≠ group) (c : Char) :
    (pending piece).settle group c = pending piece :=
  if_neg differ

theorem pending_of_settle {block : Block} {piece : Starred} (left : block.settle group c = pending piece) :
    block = pending piece ∧ piece.text ≠ group := by
  cases block with
  | done d => cases left
  | pending other =>
    by_cases same : other.text = group
    · rw [settle_self same] at left
      cases left
    · rw [settle_of_ne same] at left
      cases left
      exact ⟨rfl, same⟩

theorem Over.settle {block : Block} (composed : block.Over known) (letter : isWord c = true) :
    (block.settle group c).Over known := by
  cases block with
  | done d => exact composed
  | pending piece =>
    by_cases same : piece.text = group
    · rw [settle_self same]
      exact letter
    · rw [settle_of_ne same]
      exact composed

theorem meaning_settle {block : Block}
    (same : ∀ piece, block = pending piece → piece.text = group → valuation c = piece.meaning valuation) :
    (block.settle group c).meaning valuation = block.meaning valuation := by
  cases block with
  | done d => rfl
  | pending piece =>
    by_cases found : piece.text = group
    · rw [settle_self found]
      exact same piece rfl found
    · rw [settle_of_ne found]

theorem spell_flatMap {blocks : List Block} (settled : ∀ piece, pending piece ∉ blocks) :
    valuation.spell (blocks.flatMap text) = (blocks.map (meaning valuation)).prod := by
  induction blocks with
  | nil => rfl
  | cons block blocks ih =>
    have later := ih fun piece member => settled piece (by simp [member])
    rw [List.flatMap_cons, Valuation.spell_append, later, List.map_cons, List.prod_cons]
    cases block with
    | pending piece => exact False.elim (settled piece (by simp))
    | done c =>
      rw [text, Valuation.spell_singleton]
      rfl

theorem star_mem {piece : Starred} (repeats : Repeats known piece body) : '*' ∈ piece.text := by
  cases repeats <;> simp [Starred.text]

section Texts

variable (wordly : ∀ c, known c → isWord c = true)
include wordly

/-- No star stands at the front of what follows a block. -/
theorem head_ne_star {blocks : List Block} (composed : ∀ block ∈ blocks, block.Over known)
    (letters : ∀ c ∈ word, known c) : (blocks.flatMap text ++ word).head? ≠ some '*' := by
  intro star
  cases blocks with
  | nil => exact notMem_of_known wordly letters isWord_star (List.mem_of_mem_head? star)
  | cons block blocks =>
    have first := composed block (by simp)
    cases block with
    | done c => exact ne_of_isWord first isWord_star (Option.some.inj star)
    | pending piece =>
      obtain ⟨body, repeats⟩ := first
      cases repeats with
      | @letter c letter => exact ne_of_isWord (wordly c letter) isWord_star (Option.some.inj star)
      | word _ _ => exact absurd (Option.some.inj star) (by decide)

/-- An exchange of a repeated letter passes over every other repeated piece. -/
private theorem replaceAll_letter {other : Starred} {replacement : Text} (letter : known c)
    (repeats : Repeats known other body) (differ : other.text ≠ [c, '*']) (rest : Text) :
    replaceAll [c, '*'] replacement (other.text ++ rest) = other.text ++ replaceAll [c, '*'] replacement rest := by
  have present : [c, '*'] ≠ [] := List.cons_ne_nil c ['*']
  have star : replaceAll [c, '*'] replacement ('*' :: rest) = '*' :: replaceAll [c, '*'] replacement rest := by
    apply replaceAll_cons_of_absent
    intro front
    exact ne_of_isWord (wordly c letter) isWord_star (List.cons_prefix_cons.mp front).1
  cases repeats with
  | @letter d _ =>
    have absent : ¬ [c, '*'] <+: d :: '*' :: rest := fun front =>
      differ (by simp [Starred.text, (List.cons_prefix_cons.mp front).1])
    change replaceAll [c, '*'] replacement (d :: '*' :: rest) = d :: '*' :: replaceAll [c, '*'] replacement rest
    rw [replaceAll_cons_of_absent absent, star]
  | word _ letters =>
    have starless : '*' ∉ '(' :: body := by
      intro member
      rcases List.mem_cons.mp member with same | inside
      · exact absurd same (by decide)
      · exact notMem_of_known wordly letters isWord_star inside
    have absent : ¬ [c, '*'] <:+: '(' :: body := fun inside => starless (inside.subset (by simp))
    have around : replaceAll [c, '*'] replacement ('(' :: body ++ ')' :: '*' :: rest) = _ :=
      replaceAll_append_cons present (notMem_of_letter wordly letter isWord_closing (by decide)) _ _
    rw [replaceAll_of_absent present absent, star] at around
    simpa [Starred.text, sumText] using around

/-- An exchange of a repeated word passes over every other repeated piece. -/
private theorem replaceAll_word {other : Starred} {replacement : Text} (present : word ≠ [])
    (letters : ∀ c ∈ word, known c) (repeats : Repeats known other body)
    (differ : other.text ≠ (Starred.sum [word]).text) (rest : Text) :
    replaceAll (Starred.sum [word]).text replacement (other.text ++ rest) =
      other.text ++ replaceAll (Starred.sum [word]).text replacement rest := by
  cases repeats with
  | letter letter => exact replaceAll_append_of_notMem (notMem_of_letter wordly letter isWord_opening (by decide)) rest
  | word filled others =>
    have one : IsSum known [word] := ⟨by simp, by simpa using present, by simpa using letters⟩
    have two : IsSum known [body] := ⟨by simp, by simpa using filled, by simpa using others⟩
    have apart : [body] ≠ [word] := fun same => differ (by rw [same])
    have front : sumText [word] <+: (Starred.sum [word]).text := List.prefix_append _ _
    have star : replaceAll (Starred.sum [word]).text replacement (['*'] ++ rest) =
        ['*'] ++ replaceAll (Starred.sum [word]).text replacement rest :=
      replaceAll_append_of_notMem (by decide) rest
    rw [Starred.text_sum [body], List.append_assoc, replaceAll_sumText wordly front one two apart, star,
      List.append_assoc]

theorem replaceAll_pending {piece other : Starred} {replacement : Text} (repeats : Repeats known piece body)
    (composed : (pending other).Over known) (differ : other.text ≠ piece.text) (rest : Text) :
    replaceAll piece.text replacement (other.text ++ rest) = other.text ++ replaceAll piece.text replacement rest := by
  obtain ⟨_, second⟩ := composed
  cases repeats with
  | letter letter => exact replaceAll_letter wordly letter second differ rest
  | word present letters => exact replaceAll_word wordly present letters second differ rest

theorem replaceAll_settle {block : Block} {piece : Starred} (repeats : Repeats known piece body)
    (composed : block.Over known) (apart : rest.head? ≠ some '*') :
    replaceAll piece.text [c] (block.text ++ rest) =
      (block.settle piece.text c).text ++ replaceAll piece.text [c] rest := by
  cases block with
  | pending other =>
    by_cases same : other.text = piece.text
    · have present : piece.text ≠ [] := List.ne_nil_of_mem (star_mem repeats)
      rw [settle_self same, text, same, replaceAll_append_of_ne_nil present]
      rfl
    · rw [settle_of_ne same]
      exact replaceAll_pending wordly repeats composed same rest
  | done d =>
    have absent : ¬ piece.text <+: d :: rest := by
      intro front
      cases repeats with
      | letter _ =>
        obtain ⟨_, behind⟩ := List.cons_prefix_cons.mp front
        obtain ⟨after, rfl⟩ := behind
        exact apart rfl
      | word _ _ => exact ne_of_isWord composed isWord_opening (List.cons_prefix_cons.mp front).1.symm
    exact replaceAll_cons_of_absent absent [c]

/-- The exchange of a repeated piece settles every block with its text. -/
theorem replaceAll_blocks {blocks : List Block} {piece : Starred} (repeats : Repeats known piece body)
    (composed : ∀ block ∈ blocks, block.Over known) (letters : ∀ c ∈ word, known c) :
    replaceAll piece.text [c] (blocks.flatMap text ++ word) =
      (blocks.map (settle piece.text c)).flatMap text ++ word := by
  induction blocks with
  | nil =>
    have star := star_mem repeats
    have absent : ¬ piece.text <:+: word := fun inside =>
      notMem_of_known wordly letters isWord_star (inside.subset star)
    exact replaceAll_of_absent (List.ne_nil_of_mem star) absent
  | cons block blocks ih =>
    have later : ∀ other ∈ blocks, other.Over known := fun other member => composed other (by simp [member])
    have apart := head_ne_star wordly later letters
    rw [List.flatMap_cons, List.append_assoc, replaceAll_settle wordly repeats (composed block (by simp)) apart,
      ih later, List.map_cons, List.flatMap_cons, List.append_assoc]

end Texts

end Block

end Flat
end SumStar
