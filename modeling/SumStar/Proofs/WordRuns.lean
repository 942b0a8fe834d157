import SumStar.Group.Word
import SumStar.Text.Replace

/-! Word characters stand in runs with gaps between them, one character each. An exchange of words
takes place inside the runs and leaves the gaps where they are; only an exchange of a target that
has a gap itself takes gaps away. -/

namespace SumStar

namespace Text

variable {target replacement text piece : Text} {expand : Char → Text}

/-- Proofs about an exchange follow its steps: an occurrence is passed as a whole, everything else
one character after the other. -/
theorem replace_induction (present : target ≠ []) {motive : Text → Prop} (nil : motive [])
    (found : ∀ rest, motive rest → motive (target ++ rest))
    (missed : ∀ c rest, ¬ target <+: c :: rest → motive rest → motive (c :: rest)) (text : Text) :
    motive text := by
  induction size : text.length using Nat.strongRecOn generalizing text with
  | ind size ih =>
    cases text with
    | nil => exact nil
    | cons c rest =>
      by_cases front : target <+: c :: rest
      · obtain ⟨rest, same⟩ := front
        rw [← same] at size ⊢
        have := List.length_pos_iff.mpr present
        exact found rest (ih rest.length (by simp at size; omega) rest rfl)
      · exact missed c rest front (ih rest.length (by simp at size; omega) rest rfl)

theorem replaceAll_self (present : target ≠ []) (text : Text) : replaceAll target target text = text := by
  induction text using replace_induction present with
  | nil => rfl
  | found rest ih => rw [replaceAll_append_of_ne_nil present, ih]
  | missed c rest absent ih => rw [replaceAll_cons_of_absent absent, ih]

theorem replaceAll_of_absent (present : target ≠ []) (absent : ¬ target <:+: text) :
    replaceAll target replacement text = text := by
  induction text using replace_induction present with
  | nil => rfl
  | found rest _ => exact False.elim (absent (List.prefix_append target rest).isInfix)
  | missed c rest other ih =>
    rw [replaceAll_cons_of_absent other, ih fun inside => absent (List.infix_cons inside)]

theorem infix_replaceAll (present : target ≠ []) (inside : target <:+: text) :
    replacement <:+: replaceAll target replacement text := by
  induction text using replace_induction present with
  | nil => exact False.elim (present (List.infix_nil.mp inside))
  | found rest _ =>
    rw [replaceAll_append_of_ne_nil present]
    exact (List.prefix_append replacement _).isInfix
  | missed c rest absent ih =>
    rw [replaceAll_cons_of_absent absent]
    exact List.infix_cons (ih ((List.infix_cons_iff.mp inside).resolve_left absent))

theorem mem_of_mem_replaceAll (present : target ≠ []) {c : Char}
    (member : c ∈ replaceAll target replacement text) : c ∈ replacement ∨ c ∈ text := by
  induction text using replace_induction present with
  | nil => cases member
  | found rest ih =>
    rw [replaceAll_append_of_ne_nil present] at member
    rcases List.mem_append.mp member with new | old
    · exact Or.inl new
    · exact (ih old).imp_right fun old => List.mem_append_right target old
  | missed d rest absent ih =>
    rw [replaceAll_cons_of_absent absent] at member
    rcases List.mem_cons.mp member with rfl | old
    · exact Or.inr (by simp)
    · exact (ih old).imp_right (List.mem_cons_of_mem d)

/-- A piece without the character at the front of a text ends before the character. -/
theorem prefix_of_prefix_append_cons {piece before after : Text} {c : Char} (foreign : c ∉ piece)
    (front : piece <+: before ++ c :: after) : piece <+: before := by
  induction before generalizing piece with
  | nil =>
    cases piece with
    | nil => exact List.nil_prefix
    | cons d rest => exact False.elim (foreign (by simp [(List.cons_prefix_cons.mp front).1]))
  | cons d before ih =>
    cases piece with
    | nil => exact List.nil_prefix
    | cons first piece =>
      obtain ⟨same, rest⟩ := List.cons_prefix_cons.mp front
      exact List.cons_prefix_cons.mpr ⟨same, ih (fun member => foreign (by simp [member])) rest⟩

/-- A character that the target does not have keeps an exchange on its two sides apart. -/
theorem replaceAll_append_cons (present : target ≠ []) {c : Char} (foreign : c ∉ target) (before after : Text) :
    replaceAll target replacement (before ++ c :: after) =
      replaceAll target replacement before ++ c :: replaceAll target replacement after := by
  induction before using replace_induction present with
  | nil =>
    have absent : ¬ target <+: c :: after := fun front =>
      present (List.prefix_nil.mp (prefix_of_prefix_append_cons foreign front))
    exact replaceAll_cons_of_absent absent replacement
  | found rest ih =>
    rw [List.append_assoc, replaceAll_append_of_ne_nil present, replaceAll_append_of_ne_nil present, ih,
      List.append_assoc]
  | missed d rest absent ih =>
    have still : ¬ target <+: d :: (rest ++ c :: after) := fun front =>
      absent (prefix_of_prefix_append_cons foreign front)
    rw [List.cons_append, replaceAll_cons_of_absent still, ih, replaceAll_cons_of_absent absent,
      List.cons_append]

theorem replaceAll_append_foreign (present : target ≠ []) {c : Char} (foreign : c ∉ target) (before after : Text) :
    replaceAll target replacement (before ++ c :: after) =
      replaceAll target replacement before ++ replaceAll target replacement (c :: after) := by
  rw [replaceAll_append_cons present foreign, ← List.nil_append (c :: after),
    replaceAll_append_cons present foreign]
  rfl

theorem replaceAll_ne_nil (present : target ≠ []) (filled : replacement ≠ []) (some : text ≠ []) :
    replaceAll target replacement text ≠ [] := by
  cases text with
  | nil => exact False.elim (some rfl)
  | cons c rest =>
    by_cases front : target <+: c :: rest
    · obtain ⟨behind, same⟩ := front
      rw [← same, replaceAll_append_of_ne_nil present]
      exact List.append_ne_nil_of_left_ne_nil filled _
    · rw [replaceAll_cons_of_absent front]
      exact List.cons_ne_nil _ _

theorem replaceAll_append_of_notMem {c : Char} {before : Text} (foreign : c ∉ before) (after : Text) :
    replaceAll (c :: target) replacement (before ++ after) =
      before ++ replaceAll (c :: target) replacement after := by
  induction before with
  | nil => rfl
  | cons d before ih =>
    have absent : ¬ c :: target <+: d :: (before ++ after) := fun front =>
      foreign (by simp [(List.cons_prefix_cons.mp front).1])
    rw [List.cons_append, replaceAll_cons_of_absent absent, ih fun member => foreign (by simp [member]),
      List.cons_append]

theorem flatMap_replaceAll (present : target ≠ []) (same : replacement.flatMap expand = target.flatMap expand)
    (text : Text) : (replaceAll target replacement text).flatMap expand = text.flatMap expand := by
  induction text using replace_induction present with
  | nil => rfl
  | found rest ih =>
    rw [replaceAll_append_of_ne_nil present, List.flatMap_append, List.flatMap_append, same, ih]
  | missed c rest absent ih => rw [replaceAll_cons_of_absent absent, List.flatMap_cons, List.flatMap_cons, ih]

theorem replaceAll_singleton_append (c : Char) (replacement first second : Text) :
    replaceAll [c] replacement (first ++ second) =
      replaceAll [c] replacement first ++ replaceAll [c] replacement second := by
  induction first with
  | nil => rfl
  | cons d first ih =>
    by_cases same : d = c
    · subst same
      have exchanged : ∀ rest : Text,
          replaceAll [d] replacement (d :: rest) = replacement ++ replaceAll [d] replacement rest :=
        replaceAll_append_of_ne_nil (List.cons_ne_nil d []) replacement
      rw [List.cons_append, exchanged, exchanged, ih, List.append_assoc]
    · have absent : ∀ rest : Text, ¬ [c] <+: d :: rest := fun rest front =>
        same (List.cons_prefix_cons.mp front).1.symm
      rw [List.cons_append, replaceAll_cons_of_absent (absent _), replaceAll_cons_of_absent (absent _), ih,
        List.cons_append]

/-- A text of word characters only. -/
def IsWordly (text : Text) : Prop :=
  ∀ c ∈ text, isWord c = true

theorem IsWordly.notMem (wordly : IsWordly text) {gap : Char} (outside : isWord gap = false) : gap ∉ text :=
  fun member => ne_of_isWord (wordly gap member) outside rfl

theorem not_isParenthesis_of_isWord {c : Char} (word : isWord c = true) : isParenthesis c = false := by
  cases parenthesis : isParenthesis c with
  | false => rfl
  | true => exact False.elim (ne_of_isWord word (not_isWord_of_isParenthesis parenthesis) rfl)

theorem withoutParentheses_of_forall (plain : ∀ c ∈ text, isParenthesis c = false) :
    withoutParentheses text = text :=
  List.filter_eq_self.mpr fun c member => by rw [plain c member]; rfl

theorem flatMap_withoutParentheses (vanish : ∀ c, isParenthesis c = true → expand c = []) (text : Text) :
    (withoutParentheses text).flatMap expand = text.flatMap expand := by
  induction text with
  | nil => rfl
  | cons c text ih =>
    cases parenthesis : isParenthesis c with
    | true => simpa [withoutParentheses, parenthesis, vanish c parenthesis] using ih
    | false => simpa [withoutParentheses, parenthesis] using ih

theorem IsWordly.withoutParentheses (wordly : IsWordly text) : withoutParentheses text = text :=
  withoutParentheses_of_forall fun c member => not_isParenthesis_of_isWord (wordly c member)

theorem IsWordly.replaceAll (wordly : IsWordly text) (present : target ≠ []) (words : IsWordly replacement) :
    IsWordly (replaceAll target replacement text) := fun c member =>
  (mem_of_mem_replaceAll present member).elim (words c) (wordly c)

/-- The number of characters outside words. -/
def gaps (text : Text) : Nat :=
  (text.filter fun c => !isWord c).length

theorem gaps_append (first second : Text) : gaps (first ++ second) = gaps first + gaps second := by
  simp [gaps]

theorem gaps_cons (c : Char) (text : Text) : gaps (c :: text) = gaps [c] + gaps text :=
  gaps_append [c] text

theorem gaps_eq_zero_iff : gaps text = 0 ↔ IsWordly text := by
  simp [gaps, IsWordly, List.filter_eq_nil_iff]

theorem gaps_replaceAll_le (present : target ≠ []) (words : IsWordly replacement) (text : Text) :
    gaps (replaceAll target replacement text) ≤ gaps text := by
  induction text using replace_induction present with
  | nil => exact Nat.le_refl _
  | found rest ih =>
    rw [replaceAll_append_of_ne_nil present, gaps_append, gaps_append, gaps_eq_zero_iff.mpr words]
    omega
  | missed c rest absent ih =>
    rw [replaceAll_cons_of_absent absent, gaps_cons c, gaps_cons c rest]
    omega

theorem count_replaceAll_le (present : target ≠ []) {c : Char} (foreign : c ∉ replacement) (text : Text) :
    (replaceAll target replacement text).count c ≤ text.count c := by
  induction text using replace_induction present with
  | nil => exact Nat.le_refl _
  | found rest ih =>
    rw [replaceAll_append_of_ne_nil present, List.count_append, List.count_append, List.count_eq_zero_of_not_mem foreign]
    omega
  | missed d rest absent ih =>
    rw [replaceAll_cons_of_absent absent, List.count_cons, List.count_cons]
    omega

/-- An occurrence of a target takes its characters with it. -/
theorem count_replaceAll_lt (present : target ≠ []) {c : Char} (foreign : c ∉ replacement) (own : c ∈ target)
    (inside : target <:+: text) : (replaceAll target replacement text).count c < text.count c := by
  induction text using replace_induction present with
  | nil => exact False.elim (present (List.infix_nil.mp inside))
  | found rest _ =>
    have positive : 0 < target.count c := List.count_pos_iff.mpr own
    have := count_replaceAll_le present foreign rest
    rw [replaceAll_append_of_ne_nil present, List.count_append, List.count_append, List.count_eq_zero_of_not_mem foreign]
    omega
  | missed d rest absent ih =>
    have := ih ((List.infix_cons_iff.mp inside).resolve_left absent)
    rw [replaceAll_cons_of_absent absent, List.count_cons, List.count_cons]
    omega

/-- An occurrence of a target that is no word takes its gaps with it. -/
theorem gaps_replaceAll_lt (present : target ≠ []) (words : IsWordly replacement) (gapped : ¬ IsWordly target)
    (inside : target <:+: text) : gaps (replaceAll target replacement text) < gaps text := by
  induction text using replace_induction present with
  | nil => exact False.elim (present (List.infix_nil.mp inside))
  | found rest _ =>
    have positive : gaps target ≠ 0 := fun none => gapped (gaps_eq_zero_iff.mp none)
    have := gaps_replaceAll_le present words rest
    rw [replaceAll_append_of_ne_nil present, gaps_append, gaps_append, gaps_eq_zero_iff.mpr words]
    omega
  | missed c rest absent ih =>
    have := ih ((List.infix_cons_iff.mp inside).resolve_left absent)
    rw [replaceAll_cons_of_absent absent, gaps_cons c, gaps_cons c rest]
    omega

/-- The pieces between the gaps, empty ones included. -/
def runs (text : Text) : List Text :=
  text.splitOnP fun c => !isWord c

theorem runs_of_isWordly (wordly : IsWordly text) : runs text = [text] :=
  List.splitOnP_eq_singleton (by simpa [IsWordly] using wordly)

theorem runs_append_cons {word : Text} (wordly : IsWordly word) {c : Char} (gap : isWord c = false) (rest : Text) :
    runs (word ++ c :: rest) = word :: runs rest :=
  List.splitOnP_append_cons_of_forall_mem (by simpa [IsWordly] using wordly) c (by simp [gap]) rest

theorem runs_append_gap (first rest : Text) {c : Char} (gap : isWord c = false) :
    runs (first ++ c :: rest) = runs first ++ runs rest :=
  List.splitOnP_append_cons first rest (by simp [gap])

/-- A place where no run goes on: a gap ends in front of it or begins behind it. -/
def Boundary (first rest : Text) : Prop :=
  (∃ before c, first = before ++ [c] ∧ isWord c = false) ∨ ∀ c behind, rest = c :: behind → isWord c = false

theorem mem_runs_append {first rest run : Text} (boundary : Boundary first rest) (present : run ≠ [])
    (member : run ∈ runs rest) : run ∈ runs (first ++ rest) := by
  rcases boundary with ⟨before, c, rfl, gap⟩ | gap
  · rw [List.append_assoc, List.singleton_append, runs_append_gap before rest gap]
    exact List.mem_append_right _ member
  · cases rest with
    | nil => exact False.elim (present (List.mem_singleton.mp member))
    | cons c rest =>
      rw [runs_append_gap first rest (gap c rest rfl)]
      have behind : run ∈ runs [] ++ runs rest := by
        rw [← runs_append_gap [] rest (gap c rest rfl)]
        exact member
      rcases List.mem_append.mp behind with empty | later
      · exact False.elim (present (List.mem_singleton.mp empty))
      · exact List.mem_append_right _ later

/-- A text is a run, or a run in front of a gap and a further text. -/
theorem runs_induction {motive : Text → Prop} (last : ∀ word, IsWordly word → motive word)
    (gap : ∀ word c rest, IsWordly word → isWord c = false → motive rest → motive (word ++ c :: rest))
    (text : Text) : motive text := by
  induction size : text.length using Nat.strongRecOn generalizing text with
  | ind size ih =>
    have split := List.takeWhile_append_dropWhile (p := isWord) (l := text)
    have wordly : IsWordly (text.takeWhile isWord) := fun c member =>
      List.all_eq_true.mp (List.all_takeWhile (p := isWord)) c member
    cases behind : text.dropWhile isWord with
    | nil =>
      rw [behind, List.append_nil] at split
      exact split ▸ last _ wordly
    | cons c rest =>
      have outside : isWord c = false := by
        have first := List.head_dropWhile_not isWord (l := text) (by simp [behind])
        simpa [behind] using first
      rw [behind] at split
      rw [← split] at size ⊢
      exact gap _ c rest wordly outside (ih rest.length (by simp at size; omega) rest rfl)

theorem isWordly_of_mem_runs {run : Text} (member : run ∈ runs text) : IsWordly run := by
  induction text using runs_induction with
  | last word wordly =>
    rw [runs_of_isWordly wordly, List.mem_singleton] at member
    exact member ▸ wordly
  | gap word c rest wordly outside ih =>
    rw [runs_append_cons wordly outside, List.mem_cons] at member
    rcases member with rfl | later
    · exact wordly
    · exact ih later

theorem length_runs (text : Text) : (runs text).length = gaps text + 1 := by
  induction text using runs_induction with
  | last word wordly => rw [runs_of_isWordly wordly, gaps_eq_zero_iff.mpr wordly]; rfl
  | gap word c rest wordly outside ih =>
    have one : gaps [c] = 1 := by simp [gaps, outside]
    rw [runs_append_cons wordly outside, List.length_cons, ih, gaps_append, gaps_cons, one,
      gaps_eq_zero_iff.mpr wordly]
    omega

theorem runs_replaceAll (present : target ≠ []) (wordly : IsWordly target) (words : IsWordly replacement)
    (text : Text) :
    runs (replaceAll target replacement text) = (runs text).map (replaceAll target replacement) := by
  induction text using runs_induction with
  | last word own => rw [runs_of_isWordly own, runs_of_isWordly (own.replaceAll present words)]; rfl
  | gap word c rest own outside ih =>
    have foreign : c ∉ target := fun member => by simp [wordly c member] at outside
    rw [replaceAll_append_cons present foreign, runs_append_cons own outside,
      runs_append_cons (own.replaceAll present words) outside, ih, List.map_cons]

/-- What is put in takes no part in a front that shares no character with it. -/
theorem prefix_of_prefix_replaceAll (present : target ≠ []) (filled : replacement ≠ [])
    (apart : ∀ c ∈ piece, c ∉ replacement) (front : piece <+: replaceAll target replacement text) : piece <+: text := by
  induction text using replace_induction present generalizing piece with
  | nil => exact front
  | found rest _ =>
    rw [replaceAll_append_of_ne_nil present] at front
    obtain ⟨first, others, rfl⟩ := List.exists_cons_of_ne_nil filled
    cases piece with
    | nil => exact List.nil_prefix
    | cons c piece =>
      have same := (List.cons_prefix_cons.mp front).1
      exact False.elim (apart c (by simp) (by simp [same]))
  | missed c rest absent ih =>
    rw [replaceAll_cons_of_absent absent] at front
    cases piece with
    | nil => exact List.nil_prefix
    | cons d piece =>
      obtain ⟨same, behind⟩ := List.cons_prefix_cons.mp front
      exact List.cons_prefix_cons.mpr ⟨same, ih (fun e member => apart e (by simp [member])) behind⟩

theorem infix_of_infix_append {word rest : Text} (apart : ∀ c ∈ piece, c ∉ word) (some : piece ≠ [])
    (inside : piece <:+: word ++ rest) : piece <:+: rest := by
  induction word with
  | nil => exact inside
  | cons first word ih =>
    rcases List.infix_cons_iff.mp inside with front | behind
    · obtain ⟨c, piece, rfl⟩ := List.exists_cons_of_ne_nil some
      exact False.elim (apart c (by simp) (by simp [(List.cons_prefix_cons.mp front).1]))
    · exact ih (fun c member inside => apart c member (by simp [inside])) behind

/-- An exchange does not bring about a piece that shares no character with what it puts in. -/
theorem infix_of_infix_replaceAll (present : target ≠ []) (filled : replacement ≠ [])
    (apart : ∀ c ∈ piece, c ∉ replacement) (some : piece ≠ [])
    (inside : piece <:+: replaceAll target replacement text) : piece <:+: text := by
  induction text using replace_induction present with
  | nil => exact inside
  | found rest ih =>
    rw [replaceAll_append_of_ne_nil present] at inside
    have behind := infix_of_infix_append apart some inside
    exact (ih behind).trans (List.suffix_append target rest).isInfix
  | missed c rest absent ih =>
    rw [replaceAll_cons_of_absent absent] at inside
    rcases List.infix_cons_iff.mp inside with front | behind
    · rw [← replaceAll_cons_of_absent absent] at front
      exact (prefix_of_prefix_replaceAll present filled apart front).isInfix
    · exact List.infix_cons (ih behind)

/-- No occurrence of a target is left if what is put in shares no character with it. -/
theorem not_infix_replaceAll (present : target ≠ []) (filled : replacement ≠ [])
    (apart : ∀ c ∈ target, c ∉ replacement) (text : Text) : ¬ target <:+: replaceAll target replacement text := by
  induction text using replace_induction present with
  | nil => exact fun inside => present (List.infix_nil.mp inside)
  | found rest ih =>
    rw [replaceAll_append_of_ne_nil present]
    exact fun inside => ih (infix_of_infix_append apart present inside)
  | missed c rest absent ih =>
    rw [replaceAll_cons_of_absent absent]
    intro inside
    rcases List.infix_cons_iff.mp inside with front | behind
    · rw [← replaceAll_cons_of_absent absent] at front
      exact absent (prefix_of_prefix_replaceAll present filled apart front)
    · exact ih behind

end Text
end SumStar
