import Mathlib.Computability.Language
import SumStar.Production
import SumStar.Proofs.WordRuns

/-! A valuation says what each character stands for. A text then stands for what its characters
stand for, one behind the other, and several texts for what any of them stands for. A valuation
reads productions if every head stands for what its bodies stand for together. -/

namespace SumStar

abbrev Valuation := Char → Language Char

namespace Valuation

variable {valuation : Valuation} {text : Text} {words : List Text}

def spell (valuation : Valuation) (text : Text) : Language Char :=
  (text.map valuation).prod

def sum (valuation : Valuation) (words : List Text) : Language Char :=
  (words.map valuation.spell).sum

/-- Every character stands for itself. -/
def plain : Valuation := fun c => {[c]}

@[simp] theorem spell_nil : valuation.spell [] = 1 := rfl

@[simp] theorem spell_cons (c : Char) (text : Text) :
    valuation.spell (c :: text) = valuation c * valuation.spell text := by
  simp [spell]

@[simp] theorem spell_append (first second : Text) :
    valuation.spell (first ++ second) = valuation.spell first * valuation.spell second := by
  simp [spell]

@[simp] theorem sum_nil : valuation.sum [] = 0 := by
  simp [sum]

@[simp] theorem sum_cons (word : Text) (words : List Text) :
    valuation.sum (word :: words) = valuation.spell word + valuation.sum words := by
  simp [sum]

theorem spell_singleton (c : Char) : valuation.spell [c] = valuation c := by simp

theorem sum_singleton (word : Text) : valuation.sum [word] = valuation.spell word := by simp

theorem mem_sum : text ∈ valuation.sum words ↔ ∃ word ∈ words, text ∈ valuation.spell word := by
  induction words with
  | nil => simp [Language.notMem_zero]
  | cons word words ih => simp [Language.mem_add, ih]

theorem spell_congr {other : Valuation} (same : ∀ c ∈ text, valuation c = other c) :
    valuation.spell text = other.spell text :=
  congrArg List.prod (List.map_congr_left same)

theorem sum_congr {other : Valuation} (same : ∀ word ∈ words, ∀ c ∈ word, valuation c = other c) :
    valuation.sum words = other.sum words :=
  congrArg List.sum (List.map_congr_left fun word member => spell_congr (same word member))

theorem spell_replaceAll {target replacement : Text} (present : target ≠ [])
    (same : valuation.spell replacement = valuation.spell target) (text : Text) :
    valuation.spell (Text.replaceAll target replacement text) = valuation.spell text := by
  induction text using Text.replace_induction present with
  | nil => rfl
  | found rest ih => rw [Text.replaceAll_append_of_ne_nil present, spell_append, spell_append, same, ih]
  | missed c rest absent ih => rw [Text.replaceAll_cons_of_absent absent, spell_cons, spell_cons, ih]

theorem nil_notMem_spell (present : text ≠ []) (solid : ∀ c ∈ text, [] ∉ valuation c) :
    [] ∉ valuation.spell text := by
  intro member
  cases text with
  | nil => exact present rfl
  | cons c text =>
    rw [spell_cons, Language.mem_mul] at member
    obtain ⟨first, inside, second, _, empty⟩ := member
    rw [(List.append_eq_nil_iff.mp empty).1] at inside
    exact solid c (by simp) inside

theorem nil_notMem_sum (present : ∀ word ∈ words, word ≠ [])
    (solid : ∀ word ∈ words, ∀ c ∈ word, [] ∉ valuation c) : [] ∉ valuation.sum words := by
  intro member
  obtain ⟨word, inside, empty⟩ := mem_sum.mp member
  exact nil_notMem_spell (present word inside) (solid word inside) empty

/-- Every lowercase letter stands for itself, every head for what its bodies stand for. -/
structure Reads (valuation : Valuation) (productions : List Production) : Prop where
  letter : ∀ c, c.isLower = true → valuation c = {[c]}
  head : ∀ production ∈ productions, ∀ text,
    text ∈ valuation.spell production.head.name ↔
      ∃ other ∈ productions, other.head = production.head ∧ text ∈ valuation.spell other.body

theorem Reads.swap {first second : List Production} (reads : valuation.Reads (first ++ second)) :
    valuation.Reads (second ++ first) := by
  refine ⟨reads.letter, ?_⟩
  intro production member text
  rw [reads.head production (List.mem_append.mpr (List.mem_append.mp member).symm)]
  simp only [List.mem_append, or_comm]

theorem Reads.left {first second : List Production} (reads : valuation.Reads (first ++ second))
    (apart : ∀ one ∈ first, ∀ other ∈ second, one.head ≠ other.head) : valuation.Reads first := by
  refine ⟨reads.letter, ?_⟩
  intro production member text
  rw [reads.head production (List.mem_append_left second member)]
  constructor
  · intro ⟨other, inside, same, spelled⟩
    rcases List.mem_append.mp inside with here | there
    · exact ⟨other, here, same, spelled⟩
    · exact False.elim (apart production member other there same.symm)
  · intro ⟨other, inside, same, spelled⟩
    exact ⟨other, List.mem_append_left second inside, same, spelled⟩

theorem Reads.right {first second : List Production} (reads : valuation.Reads (first ++ second))
    (apart : ∀ one ∈ first, ∀ other ∈ second, one.head ≠ other.head) : valuation.Reads second :=
  reads.swap.left fun one member other there same => apart other there one member same.symm

theorem Reads.equation {symbol : Symbol} {bodies : List Text} (present : bodies ≠ [])
    (reads : valuation.Reads (bodies.map fun body => ⟨symbol, body⟩)) :
    valuation.spell symbol.name = valuation.sum bodies := by
  obtain ⟨body, rest, rfl⟩ := List.exists_cons_of_ne_nil present
  ext text
  rw [mem_sum, reads.head ⟨symbol, body⟩ (by simp) text]
  constructor
  · intro ⟨production, member, _, spelled⟩
    obtain ⟨other, inside, rfl⟩ := List.mem_map.mp member
    exact ⟨other, inside, spelled⟩
  · intro ⟨other, inside, spelled⟩
    exact ⟨⟨symbol, other⟩, List.mem_map.mpr ⟨other, inside, rfl⟩, rfl, spelled⟩

end Valuation
end SumStar
