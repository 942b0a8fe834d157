import SumStar.Proofs.GrammarLanguage

/-! Texts with their names left open. A template has symbols by number in it, and runs that hand out
their names from different positions write it differently. As long as no name begins another one a
template is found in what is written only where it stands in the template, so that an exchange of
one for another can be made before names are put in or after. -/

namespace SumStar

open Text

/-- A character that is no part of a name, or the symbol that a run hands out at its turn. -/
inductive Glyph where
  | plain (c : Char)
  | symbol (turn : Nat)
  deriving DecidableEq, Repr

namespace Glyph

/-- How a run that starts from a position writes the glyph. -/
def spell (start : Nat) : Glyph → Text
  | plain c => [c]
  | symbol turn => Symbol.nameAt (start + turn)

@[simp] theorem spell_plain (start : Nat) (c : Char) : (plain c).spell start = [c] := rfl

/-- No letters and digits of names, and none but the symbols handed out before a turn. -/
def IsBelow (count : Nat) : Glyph → Prop
  | plain c => c.isUpper = false ∧ c.isDigit = false
  | symbol turn => turn < count

def isWord : Glyph → Bool
  | plain c => SumStar.isWord c
  | symbol _ => true

theorem exists_of_gap {glyph : Glyph} (gap : glyph.isWord = false) :
    ∃ c, glyph = .plain c ∧ SumStar.isWord c = false := by
  cases glyph with
  | plain c => exact ⟨c, rfl, gap⟩
  | symbol turn => cases gap

end Glyph

abbrev Template := List Glyph

namespace Template

def spell (start : Nat) (template : Template) : Text :=
  template.flatMap (Glyph.spell start)

def IsBelow (count : Nat) (template : Template) : Prop :=
  ∀ glyph ∈ template, glyph.IsBelow count

/-- None of the first names begins another one of them. -/
def Apart (start count : Nat) : Prop :=
  ∀ one < count, ∀ other < count, Symbol.nameAt (start + one) <+: Symbol.nameAt (start + other) → one = other

variable {start count : Nat} {glyph other : Glyph} {template first second target replacement : Template}

@[simp] theorem spell_nil (start : Nat) : spell start [] = [] := rfl

@[simp] theorem spell_cons (start : Nat) (glyph : Glyph) (template : Template) :
    spell start (glyph :: template) = glyph.spell start ++ spell start template := by
  simp [spell]

@[simp] theorem spell_append (start : Nat) (first second : Template) :
    spell start (first ++ second) = spell start first ++ spell start second := by
  simp [spell]

theorem Apart.mono {fewer : Nat} (apart : Apart start count) (less : fewer ≤ count) : Apart start fewer :=
  fun one below other under front =>
    apart one (Nat.lt_of_lt_of_le below less) other (Nat.lt_of_lt_of_le under less) front

theorem Apart.of_length {length : Nat} (names : ∀ turn < count, (Symbol.nameAt (start + turn)).length = length) :
    Apart start count := by
  intro one below other under front
  have same := front.eq_of_length ((names one below).trans (names other under).symm)
  exact Nat.add_left_cancel (Symbol.nameAt_injective same)

theorem IsBelow.mono {more : Nat} (below : IsBelow count template) (less : count ≤ more) : IsBelow more template := by
  intro glyph member
  have own := below glyph member
  cases glyph with
  | plain c => exact own
  | symbol turn => exact Nat.lt_of_lt_of_le own less

theorem exists_of_spell (start : Nat) (own : glyph.IsBelow count) :
    ∃ c suffix, glyph.spell start = c :: suffix ∧ c.isDigit = false ∧ ∀ d ∈ suffix, d.isDigit = true := by
  cases glyph with
  | plain c => exact ⟨c, [], rfl, own.2, by simp⟩
  | symbol turn =>
    exact ⟨_, _, rfl, not_isDigit_of_isUpper (Symbol.isUpper_letterAt (start + turn)),
      fun d member => Symbol.isDigit_of_mem_roundSuffix member⟩

theorem spell_glyph_ne_nil (start : Nat) (glyph : Glyph) : glyph.spell start ≠ [] := by
  cases glyph <;> exact List.cons_ne_nil _ _

theorem spell_eq_nil_iff : spell start template = [] ↔ template = [] := by
  cases template with
  | nil => simp
  | cons glyph template => simp [spell_glyph_ne_nil]

theorem mem_spell_iff {c : Char} (gap : isWord c = false) : c ∈ spell start template ↔ Glyph.plain c ∈ template := by
  rw [spell, List.mem_flatMap]
  constructor
  · rintro ⟨glyph, member, inside⟩
    cases glyph with
    | plain d => exact List.mem_singleton.mp inside ▸ member
    | symbol turn => exact False.elim (ne_of_isWord (Symbol.isWord_of_mem_nameAt inside) gap rfl)
  · exact fun member => ⟨_, member, List.mem_singleton_self c⟩

/-- A character outside words at the front stands there by itself. -/
theorem exists_of_head {c : Char} (gap : isWord c = false) (front : (spell start template).head? = some c) :
    ∃ rest, template = .plain c :: rest := by
  cases template with
  | nil => cases front
  | cons glyph rest =>
    cases glyph with
    | plain d =>
      obtain rfl : d = c := Option.some.inj front
      exact ⟨rest, rfl⟩
    | symbol turn =>
      have upper := Symbol.isUpper_letterAt (start + turn)
      rw [show Symbol.letterAt (start + turn) = c from Option.some.inj front] at upper
      exact False.elim (ne_of_isWord (isWord_of_isAlpha (isAlpha_of_isUpper upper)) gap rfl)

theorem isWordly_spell_glyph (start : Nat) (word : glyph.isWord = true) : IsWordly (glyph.spell start) := by
  cases glyph with
  | plain c => exact fun d member => List.mem_singleton.mp member ▸ word
  | symbol turn => exact fun d member => Symbol.isWord_of_mem_nameAt member

section Apart

variable (apart : Apart start count)
include apart

theorem glyph_eq_of_spell (one : glyph.IsBelow count) (another : other.IsBelow count)
    (front : glyph.spell start <+: other.spell start) : glyph = other := by
  have letter : ∀ {c : Char} {turn : Nat} {rest more : Text}, c.isUpper = false →
      c :: rest ≠ Symbol.nameAt (start + turn) ++ more := by
    intro c turn rest more plain same
    have upper := Symbol.isUpper_letterAt (start + turn)
    rw [show Symbol.letterAt (start + turn) = c from (List.cons.inj same).1.symm, plain] at upper
    cases upper
  cases glyph with
  | plain c =>
    cases other with
    | plain d => exact congrArg Glyph.plain (List.cons_prefix_cons.mp front).1
    | symbol turn =>
      obtain ⟨rest, same⟩ := front
      exact False.elim (letter one.1 (same.trans (List.append_nil _).symm))
  | symbol turn =>
    cases other with
    | plain d =>
      obtain ⟨rest, same⟩ := front
      exact False.elim (letter another.1 same.symm)
    | symbol later => exact congrArg Glyph.symbol (apart turn one later another front)

/-- What begins in writing begins in the template. -/
theorem prefix_of_spell (one : IsBelow count first) (another : IsBelow count second)
    (front : spell start first <+: spell start second) : first <+: second := by
  induction first generalizing second with
  | nil => exact List.nil_prefix
  | cons glyph first ih =>
    cases second with
    | nil => exact False.elim (List.cons_ne_nil _ _ (spell_eq_nil_iff.mp (List.prefix_nil.mp front)))
    | cons other second =>
      rw [spell_cons, spell_cons] at front
      have here := one glyph (by simp)
      have there := another other (by simp)
      have left := (List.prefix_append (glyph.spell start) _).trans front
      have same : glyph = other := by
        rcases List.prefix_or_prefix_of_prefix left (List.prefix_append (other.spell start) _) with shorter | shorter
        · exact glyph_eq_of_spell apart here there shorter
        · exact (glyph_eq_of_spell apart there here shorter).symm
      rw [same, List.prefix_append_right_inj] at front
      have later := ih (fun glyph member => one glyph (by simp [member]))
        (fun glyph member => another glyph (by simp [member])) front
      exact same ▸ List.cons_prefix_cons.mpr ⟨rfl, later⟩

theorem spell_injective (one : IsBelow count first) (another : IsBelow count second)
    (same : spell start first = spell start second) : first = second := by
  have left := prefix_of_spell apart one another (same ▸ List.prefix_refl _)
  have right := prefix_of_spell apart another one (same ▸ List.prefix_refl _)
  exact left.eq_of_length_le right.length_le

/-- An exchange passes over a glyph if its target does not begin there. -/
theorem replaceAll_spell_cons (one : IsBelow count target) (present : target ≠ [])
    (another : IsBelow count (glyph :: template)) (absent : ¬ target <+: glyph :: template) (replacement : Text) :
    replaceAll (spell start target) replacement (spell start (glyph :: template)) =
      glyph.spell start ++ replaceAll (spell start target) replacement (spell start template) := by
  have missed : ¬ spell start target <+: spell start (glyph :: template) := fun front =>
    absent (prefix_of_spell apart one another front)
  obtain ⟨head, behind, rfl⟩ := List.exists_cons_of_ne_nil present
  obtain ⟨c, suffix, spelled, _, digits⟩ := exists_of_spell start (another glyph (by simp))
  obtain ⟨d, others, leads, letter, _⟩ := exists_of_spell start (one head (by simp))
  have foreign : d ∉ suffix := fun member => by
    rw [digits d member] at letter
    cases letter
  rw [spell_cons start glyph, spelled, List.cons_append] at missed ⊢
  rw [replaceAll_cons_of_absent missed, List.cons_append, spell_cons start head, leads, List.cons_append,
    replaceAll_append_of_notMem foreign]

end Apart

/-- An exchange can be made before names are put in. -/
theorem exists_replaceAll (one : IsBelow count target) (present : target ≠ []) (another : IsBelow count template)
    (replacement : Template) :
    ∃ changed : Template, (∀ glyph ∈ changed, glyph ∈ replacement ∨ glyph ∈ template) ∧
      ∀ start, Apart start count →
        replaceAll (spell start target) (spell start replacement) (spell start template) = spell start changed := by
  induction size : template.length using Nat.strongRecOn generalizing template with
  | ind length ih =>
    by_cases front : target <+: template
    · obtain ⟨rest, rfl⟩ := front
      have shorter : rest.length < length := by
        have := List.length_pos_iff.mpr present
        rw [List.length_append] at size
        omega
      obtain ⟨changed, inside, same⟩ := ih _ shorter (fun glyph member => another glyph (by simp [member])) rfl
      refine ⟨replacement ++ changed, ?_, ?_⟩
      · intro glyph member
        rcases List.mem_append.mp member with new | later
        · exact Or.inl new
        · exact (inside glyph later).imp_right (List.mem_append_right target)
      · intro start apart
        have filled : spell start target ≠ [] := fun none => present (spell_eq_nil_iff.mp none)
        rw [spell_append, replaceAll_append_of_ne_nil filled, same start apart, spell_append]
    · cases template with
      | nil => exact ⟨[], by simp, fun _ _ => rfl⟩
      | cons glyph rest =>
        have shorter : rest.length < length := by
          rw [List.length_cons] at size
          omega
        obtain ⟨changed, inside, same⟩ := ih _ shorter (fun glyph member => another glyph (by simp [member])) rfl
        refine ⟨glyph :: changed, ?_, ?_⟩
        · intro other member
          rcases List.mem_cons.mp member with rfl | later
          · exact Or.inr List.mem_cons_self
          · exact (inside other later).imp_right (List.mem_cons_of_mem glyph)
        · intro start apart
          rw [replaceAll_spell_cons apart one present another front, same start apart, spell_cons]

end Template
end SumStar
