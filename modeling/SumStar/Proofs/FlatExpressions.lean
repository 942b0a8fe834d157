import SumStar.Proofs.SumTexts
import SumStar.Proofs.Valuations

/-! Flat expressions are what the sum phase makes of sums that are not nested: repeated letters and
sums at the front, then words with sums between them. An exchange of a sum or of a word for a
letter leads from one flat expression to another, and both stand for the same if the letter stands
for what was exchanged. -/

namespace SumStar

open Computability Text

variable {known wider : Char → Prop} {valuation : Valuation} {c : Char} {words target : List Text}
  {group : Text}

namespace Flat

/-- A piece that is repeated. -/
inductive Starred where
  | letter (c : Char)
  | sum (words : List Text)

/-- Words with sums between them. -/
inductive Tail where
  | last (word : Text)
  | sum (word : Text) (words : List Text) (rest : Tail)

namespace Starred

def text : Starred → Text
  | letter c => [c, '*']
  | sum words => sumText words ++ ['*']

def meaning (valuation : Valuation) : Starred → Language Char
  | letter c => (valuation c)∗
  | sum words => (valuation.sum words)∗

def Over (known : Char → Prop) : Starred → Prop
  | letter c => known c
  | sum words => IsSum known words

def exchange (target : List Text) (c : Char) : Starred → Starred
  | letter d => letter d
  | sum words => if words = target then letter c else sum words

def respell (change : Text → Text) : Starred → Starred
  | letter d => letter d
  | sum words => sum (words.map change)

theorem text_sum (words : List Text) : (sum words).text = sumText words ++ ['*'] := rfl

theorem exchange_self (words : List Text) (c : Char) : (sum words).exchange words c = letter c :=
  if_pos rfl

theorem exchange_of_ne (differ : words ≠ target) (c : Char) : (sum words).exchange target c = sum words :=
  if_neg differ

end Starred

namespace Tail

def text : Tail → Text
  | last word => word
  | sum word words rest => word ++ (sumText words ++ rest.text)

def meaning (valuation : Valuation) : Tail → Language Char
  | last word => valuation.spell word
  | sum word words rest => valuation.spell word * (valuation.sum words * rest.meaning valuation)

def Over (known : Char → Prop) : Tail → Prop
  | last word => ∀ c ∈ word, known c
  | sum word words rest => (∀ c ∈ word, known c) ∧ IsSum known words ∧ 2 ≤ words.length ∧ rest.Over known

def prepend (front : Text) : Tail → Tail
  | last word => last (front ++ word)
  | sum word words rest => sum (front ++ word) words rest

/-- The word in front of the sum goes on with the letter and the word behind it. -/
def exchange (target : List Text) (c : Char) : Tail → Tail
  | last word => last word
  | sum word words rest =>
    if words = target then
      (rest.exchange target c).prepend (word ++ [c])
    else
      sum word words (rest.exchange target c)

def respell (change : Text → Text) : Tail → Tail
  | last word => last (change word)
  | sum word words rest => sum (change word) (words.map change) (rest.respell change)

theorem exchange_self (word : Text) (words : List Text) (rest : Tail) (c : Char) :
    (sum word words rest).exchange words c = (rest.exchange words c).prepend (word ++ [c]) :=
  if_pos rfl

theorem exchange_of_ne (differ : words ≠ target) (word : Text) (rest : Tail) (c : Char) :
    (sum word words rest).exchange target c = sum word words (rest.exchange target c) :=
  if_neg differ

theorem text_prepend (front : Text) (tail : Tail) : (tail.prepend front).text = front ++ tail.text := by
  cases tail <;> simp [prepend, text]

theorem meaning_prepend (front : Text) (tail : Tail) :
    (tail.prepend front).meaning valuation = valuation.spell front * tail.meaning valuation := by
  cases tail <;> simp [prepend, meaning, mul_assoc]

theorem Over.prepend {front : Text} {tail : Tail} (composed : tail.Over known) (fresh : ∀ c ∈ front, known c) :
    (tail.prepend front).Over known := by
  have joined : ∀ {word : Text}, (∀ c ∈ word, known c) → ∀ c ∈ front ++ word, known c :=
    fun words c member => (List.mem_append.mp member).elim (fresh c) (words c)
  cases tail with
  | last word => exact joined composed
  | sum word words rest => exact ⟨joined composed.1, composed.2⟩

end Tail

end Flat

/-- Repeated pieces stand in front of everything else. -/
structure Flat where
  starred : List Flat.Starred
  tail : Flat.Tail

namespace Flat

def text (flat : Flat) : Text :=
  flat.starred.flatMap Starred.text ++ flat.tail.text

def meaning (valuation : Valuation) (flat : Flat) : Language Char :=
  (flat.starred.map (Starred.meaning valuation)).prod * flat.tail.meaning valuation

/-- The expression is made of known letters and of sums of them. -/
structure Over (known : Char → Prop) (flat : Flat) : Prop where
  starred : ∀ piece ∈ flat.starred, piece.Over known
  tail : flat.tail.Over known

def exchange (target : List Text) (c : Char) (flat : Flat) : Flat :=
  ⟨flat.starred.map (Starred.exchange target c), flat.tail.exchange target c⟩

def respell (change : Text → Text) (flat : Flat) : Flat :=
  ⟨flat.starred.map (Starred.respell change), flat.tail.respell change⟩

section Over

theorem Starred.Over.mono {piece : Starred} (composed : piece.Over known) (widened : ∀ c, known c → wider c) :
    piece.Over wider := by
  cases piece with
  | letter c => exact widened c composed
  | sum words => exact IsSum.mono composed widened

theorem Tail.Over.mono {tail : Tail} (composed : tail.Over known) (widened : ∀ c, known c → wider c) :
    tail.Over wider := by
  induction tail with
  | last word => exact fun c member => widened c (composed c member)
  | sum word words rest ih =>
    obtain ⟨letters, sum, several, behind⟩ := composed
    exact ⟨fun c member => widened c (letters c member), sum.mono widened, several, ih behind⟩

theorem Over.mono {flat : Flat} (composed : flat.Over known) (widened : ∀ c, known c → wider c) : flat.Over wider :=
  ⟨fun piece member => (composed.starred piece member).mono widened, composed.tail.mono widened⟩

theorem Starred.Over.exchange {piece : Starred} (composed : piece.Over known) (letter : known c) :
    (piece.exchange target c).Over known := by
  cases piece with
  | letter d => exact composed
  | sum words =>
    by_cases same : words = target
    · rw [same, Starred.exchange_self]
      exact letter
    · rw [Starred.exchange_of_ne same]
      exact composed

theorem Tail.Over.exchange {tail : Tail} (composed : tail.Over known) (letter : known c) :
    (tail.exchange target c).Over known := by
  induction tail with
  | last word => exact composed
  | sum word words rest ih =>
    obtain ⟨letters, sum, several, behind⟩ := composed
    by_cases same : words = target
    · rw [same, Tail.exchange_self]
      apply (ih behind).prepend
      intro d member
      rcases List.mem_append.mp member with old | new
      · exact letters d old
      · exact List.mem_singleton.mp new ▸ letter
    · rw [Tail.exchange_of_ne same]
      exact ⟨letters, sum, several, ih behind⟩

theorem Over.exchange {flat : Flat} (composed : flat.Over known) (letter : known c) (target : List Text) :
    (flat.exchange target c).Over known := by
  refine ⟨?_, composed.tail.exchange letter⟩
  intro piece member
  obtain ⟨old, inside, rfl⟩ := List.mem_map.mp member
  exact (composed.starred old inside).exchange letter

variable {change : Text → Text} (kept : ∀ word, (∀ c ∈ word, known c) → ∀ c ∈ change word, known c)
  (filled : ∀ word, word ≠ [] → change word ≠ [])
include kept filled

theorem Tail.Over.respell {tail : Tail} (composed : tail.Over known) : (tail.respell change).Over known := by
  induction tail with
  | last word => exact kept word composed
  | sum word words rest ih =>
    obtain ⟨letters, sum, several, behind⟩ := composed
    exact ⟨kept word letters, sum.map kept filled, by simpa using several, ih behind⟩

theorem Over.respell {flat : Flat} (composed : flat.Over known) : (flat.respell change).Over known := by
  refine ⟨?_, composed.tail.respell kept filled⟩
  intro piece member
  obtain ⟨old, inside, rfl⟩ := List.mem_map.mp member
  have before := composed.starred old inside
  cases old with
  | letter d => exact before
  | sum words => exact IsSum.map before kept filled

end Over

section Meaning

/-- A letter that stands for a sum may take its place. -/
theorem meaning_exchange (same : valuation c = valuation.sum target) (flat : Flat) :
    (flat.exchange target c).meaning valuation = flat.meaning valuation := by
  have pieces : ∀ piece : Starred, (piece.exchange target c).meaning valuation = piece.meaning valuation := by
    intro piece
    cases piece with
    | letter d => rfl
    | sum words =>
      by_cases found : words = target
      · rw [found, Starred.exchange_self, Starred.meaning, Starred.meaning, same]
      · rw [Starred.exchange_of_ne found]
  have behind : ∀ tail : Tail, (tail.exchange target c).meaning valuation = tail.meaning valuation := by
    intro tail
    induction tail with
    | last word => rfl
    | sum word words rest ih =>
      by_cases found : words = target
      · simp [found, Tail.exchange_self, Tail.meaning_prepend, Tail.meaning, ← ih, same, mul_assoc]
      · rw [Tail.exchange_of_ne found, Tail.meaning, Tail.meaning, ih]
  rw [meaning, meaning, Flat.exchange, behind, List.map_map]
  exact congrArg (fun pieces : List (Language Char) => pieces.prod * _) (List.map_congr_left fun piece _ => pieces piece)

/-- Words may be respelled if they go on standing for the same. -/
theorem meaning_respell {change : Text → Text}
    (same : ∀ word, valuation.spell (change word) = valuation.spell word) (flat : Flat) :
    (flat.respell change).meaning valuation = flat.meaning valuation := by
  have sums : ∀ words, valuation.sum (words.map change) = valuation.sum words := by
    intro words
    simp only [Valuation.sum, List.map_map]
    exact congrArg List.sum (List.map_congr_left fun word _ => same word)
  have pieces : ∀ piece : Starred, (piece.respell change).meaning valuation = piece.meaning valuation := by
    intro piece
    cases piece with
    | letter d => rfl
    | sum words => exact congrArg KStar.kstar (sums words)
  have behind : ∀ tail : Tail, (tail.respell change).meaning valuation = tail.meaning valuation := by
    intro tail
    induction tail with
    | last word => exact same word
    | sum word words rest ih => simp [Tail.respell, Tail.meaning, ih, same, sums]
  rw [meaning, meaning, Flat.respell, behind, List.map_map]
  exact congrArg (fun pieces : List (Language Char) => pieces.prod * _) (List.map_congr_left fun piece _ => pieces piece)

/-- Only the letters of an expression matter for what it stands for. -/
theorem meaning_congr {flat : Flat} (composed : flat.Over known) {other : Valuation}
    (same : ∀ c, known c → valuation c = other c) : flat.meaning valuation = flat.meaning other := by
  obtain ⟨starred, tail⟩ := flat
  obtain ⟨pieces, behind⟩ := composed
  have sums : ∀ words, IsSum known words → valuation.sum words = other.sum words := fun words sum =>
    Valuation.sum_congr fun word member c inside => same c (sum.composed word member c inside)
  have first : ∀ piece ∈ starred, piece.meaning valuation = piece.meaning other := by
    intro piece member
    have own := pieces piece member
    cases piece with
    | letter c => exact congrArg KStar.kstar (same c own)
    | sum words => exact congrArg KStar.kstar (sums words own)
  have rest : tail.meaning valuation = tail.meaning other := by
    clear first pieces
    induction tail with
    | last word => exact Valuation.spell_congr fun c member => same c (behind c member)
    | sum word words rest ih =>
      obtain ⟨letters, sum, _, further⟩ := behind
      rw [Tail.meaning, Tail.meaning, Valuation.spell_congr fun c member => same c (letters c member), sums words sum,
        ih further]
  rw [meaning, meaning, rest, List.map_congr_left first]

end Meaning

section Texts

variable (wordly : ∀ c, known c → isWord c = true)
include wordly

theorem isWordly_of_known {word : Text} (letters : ∀ c ∈ word, known c) : IsWordly word :=
  fun c member => wordly c (letters c member)

theorem notMem_of_known {word : Text} (letters : ∀ c ∈ word, known c) {gap : Char} (outside : isWord gap = false) :
    gap ∉ word :=
  (isWordly_of_known wordly letters).notMem outside

theorem notMem_of_letter {gap : Char} (letter : known c) (outside : isWord gap = false) (other : gap ≠ '*') :
    gap ∉ [c, '*'] := by
  intro member
  rcases List.mem_cons.mp member with same | star
  · exact ne_of_isWord (wordly c letter) outside same.symm
  · exact other (List.mem_singleton.mp star)

theorem Starred.replaceAll_exchange {piece : Starred} (composed : piece.Over known) (sum : IsSum known target)
    (rest : Text) :
    replaceAll (sumText target) [c] (piece.text ++ rest) =
      (piece.exchange target c).text ++ replaceAll (sumText target) [c] rest := by
  cases piece with
  | letter d => exact replaceAll_append_of_notMem (notMem_of_letter wordly composed isWord_opening (by decide)) rest
  | sum words =>
    have star : replaceAll (sumText target) [c] (['*'] ++ rest) = ['*'] ++ replaceAll (sumText target) [c] rest :=
      replaceAll_append_of_notMem (by decide) rest
    by_cases same : words = target
    · rw [same, Starred.exchange_self, Starred.text_sum, List.append_assoc,
        replaceAll_append_of_ne_nil (sumText_ne_nil target), star]
      rfl
    · rw [Starred.exchange_of_ne same, Starred.text_sum, List.append_assoc,
        replaceAll_sumText wordly (List.prefix_refl _) sum composed same, star, List.append_assoc]

theorem Tail.replaceAll_exchange {tail : Tail} (composed : tail.Over known) (sum : IsSum known target) :
    replaceAll (sumText target) [c] tail.text = (tail.exchange target c).text := by
  have passed : ∀ word : Text, (∀ d ∈ word, known d) → ∀ rest : Text,
      replaceAll (sumText target) [c] (word ++ rest) = word ++ replaceAll (sumText target) [c] rest :=
    fun word letters rest => replaceAll_append_of_notMem (notMem_of_known wordly letters isWord_opening) rest
  induction tail with
  | last word =>
    have whole := passed word composed []
    rwa [List.append_nil, replaceAll_nil, List.append_nil] at whole
  | sum word words rest ih =>
    obtain ⟨letters, inner, _, behind⟩ := composed
    rw [Tail.text, passed word letters]
    by_cases same : words = target
    · rw [same, Tail.exchange_self, replaceAll_append_of_ne_nil (sumText_ne_nil target), ih behind,
        Tail.text_prepend, List.append_assoc]
    · rw [Tail.exchange_of_ne same, replaceAll_sumText wordly (List.prefix_refl _) sum inner same, ih behind, Tail.text]

theorem replaceAll_exchange {flat : Flat} (composed : flat.Over known) (sum : IsSum known target) :
    replaceAll (sumText target) [c] flat.text = (flat.exchange target c).text := by
  obtain ⟨starred, tail⟩ := flat
  obtain ⟨pieces, behind⟩ := composed
  induction starred with
  | nil => exact Tail.replaceAll_exchange wordly behind sum
  | cons piece starred ih =>
    have later := ih (fun other member => pieces other (by simp [member])) behind
    simp only [text, exchange, List.map_cons, List.flatMap_cons, List.append_assoc] at later ⊢
    rw [Starred.replaceAll_exchange wordly (pieces piece (by simp)) sum, later]

theorem Starred.replaceAll_respell {piece : Starred} (long : 2 ≤ group.length) (letters : ∀ c ∈ group, known c)
    (rest : Text) :
    replaceAll group [c] (piece.text ++ rest) =
      (piece.respell (replaceAll group [c])).text ++ replaceAll group [c] rest := by
  have present : group ≠ [] := List.length_pos_iff.mp (by omega)
  have foreign : '*' ∉ group := notMem_of_known wordly letters isWord_star
  have star : replaceAll group [c] ('*' :: rest) = '*' :: replaceAll group [c] rest :=
    replaceAll_append_cons present foreign [] rest
  cases piece with
  | letter d =>
    have short : ¬ group <:+: [d] := fun inside => by
      have := inside.length_le
      simp at this
      omega
    have around : replaceAll group [c] ([d] ++ '*' :: rest) = replaceAll group [c] [d] ++ _ :=
      replaceAll_append_cons present foreign [d] rest
    rwa [replaceAll_of_absent present short] at around
  | sum words =>
    have own := isWordly_of_known wordly letters
    simp only [Starred.text_sum, Starred.respell, List.append_assoc]
    rw [replaceAll_word_sumText present own]
    exact congrArg (sumText _ ++ ·) star

theorem Tail.replaceAll_respell (present : group ≠ []) (letters : ∀ c ∈ group, known c) (tail : Tail) :
    replaceAll group [c] tail.text = (tail.respell (replaceAll group [c])).text := by
  induction tail with
  | last word => rfl
  | sum word words rest ih =>
    have own := isWordly_of_known wordly letters
    have opening : '(' ∉ group := notMem_of_known wordly letters isWord_opening
    rw [Tail.text, Tail.respell, Tail.text, ← ih, ← replaceAll_word_sumText present own]
    exact replaceAll_append_foreign present opening word _

theorem replaceAll_respell (long : 2 ≤ group.length) (letters : ∀ c ∈ group, known c) (flat : Flat) :
    replaceAll group [c] flat.text = (flat.respell (replaceAll group [c])).text := by
  have present : group ≠ [] := List.length_pos_iff.mp (by omega)
  obtain ⟨starred, tail⟩ := flat
  induction starred with
  | nil => exact Tail.replaceAll_respell wordly present letters tail
  | cons piece starred ih =>
    simp only [text, respell, List.map_cons, List.flatMap_cons, List.append_assoc] at ih ⊢
    rw [Starred.replaceAll_respell wordly long letters, ih]

end Texts

end Flat
end SumStar
