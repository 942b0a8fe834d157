import SumStar.Proofs.FlatStars
import SumStar.Proofs.FlatSums

/-! The star phase on flat expressions. Every repeated piece becomes a symbol that stands for the
repetition, because the closure is the only language that satisfies the equation of its
productions. -/

namespace SumStar

open Computability Text

theorem Valuation.Reads.repetition {valuation : Valuation} {symbol : Symbol} {body : Text}
    (reads : valuation.Reads (Reduction.repetition symbol body)) (solid : [] ∉ valuation.spell body) :
    valuation.spell symbol.name = (valuation.spell body)∗ := by
  have equation := Reads.equation (List.cons_ne_nil (body ++ symbol.name) [[]]) reads
  have fixed : valuation.spell symbol.name = valuation.spell body * valuation.spell symbol.name + 1 := by
    simpa using equation
  rw [(Language.self_eq_mul_add_iff solid).mp fixed, mul_one]

theorem reduceStars_shared {expression : Text} (supply : Supply)
    (single : (StarGroup.findAll expression).eraseDups.length ≤ 1) :
    (reduceStars .shared expression supply).expression = (reduceStars .separate expression supply).expression ∧
      (reduceStars .shared expression supply).productions = (reduceStars .separate expression supply).productions := by
  unfold reduceStars
  match (StarGroup.findAll expression).eraseDups, single with
  | [], _ => exact ⟨rfl, rfl⟩
  | [group], _ => exact ⟨rfl, rfl⟩

namespace Flat

variable {start : Flat} {base : List Production} {word body : Text} {blocks : List Block} {reduction : Reduction}
  {groups : List Text}

/-- The expression consists of blocks and a word and stands for the same as the one at the start,
in every valuation that reads the productions of both phases. -/
structure Iterated (start : Flat) (base : List Production) (word : Text) (blocks : List Block)
    (reduction : Reduction) : Prop where
  written : reduction.expression = blocks.flatMap Block.text ++ word
  composed : ∀ block ∈ blocks, block.Over (Solid base)
  numbered : Numbered (base ++ reduction.productions) reduction.supply
  narrowed : ∀ valuation : Valuation, valuation.Reads (base ++ reduction.productions) → valuation.Reads base
  meaning : ∀ valuation : Valuation, valuation.Reads (base ++ reduction.productions) →
    (blocks.map (Block.meaning valuation)).prod * valuation.spell word = start.meaning valuation

/-- Before the first visit every block is a repeated piece. -/
theorem iterated_initial {starred : List Starred} {supply : Supply} (numbered : Numbered base supply)
    (repeats : ∀ piece ∈ starred, ∃ body, Repeats (Solid base) piece body)
    (means : ∀ valuation : Valuation, valuation.Reads base →
      meaning valuation ⟨starred, .last word⟩ = start.meaning valuation) :
    Iterated start base word (starred.map .pending) ⟨text ⟨starred, .last word⟩, supply, []⟩ := by
  constructor
  case written =>
    rw [List.flatMap_map]
    rfl
  case composed =>
    intro block member
    obtain ⟨piece, inside, rfl⟩ := List.mem_map.mp member
    exact repeats piece inside
  case numbered =>
    rw [List.append_nil]
    exact numbered
  case narrowed =>
    intro valuation reads
    rwa [List.append_nil] at reads
  case meaning =>
    intro valuation reads
    rw [List.append_nil] at reads
    rw [← means valuation reads, List.map_map]
    rfl

theorem Iterated.visit (iterated : Iterated start base word blocks reduction) {piece : Starred}
    (letters : ∀ c ∈ word, Solid base c) (repeats : Repeats (Solid base) piece body)
    (few : reduction.supply.position < 25) :
    Iterated start base word (blocks.map (Block.settle piece.text (Symbol.letterAt reduction.supply.position)))
      (reduction.visitStar .separate piece.text) := by
  have named : reduction.supply.peek.name = [Symbol.letterAt reduction.supply.position] := Symbol.nameAt_of_lt few
  have bodied : StarGroup.body piece.text = body := repeats.body_eq Solid.isWord
  have apart := iterated.numbered.apart [body ++ reduction.supply.peek.name, []]
  have grown : base ++ (reduction.visitStar .separate piece.text).productions =
      base ++ reduction.productions ++ Reduction.repetition reduction.supply.peek body := by
    rw [Reduction.visitStar, bodied, List.append_assoc]
  have before : ∀ valuation : Valuation, valuation.Reads (base ++ (reduction.visitStar .separate piece.text).productions) →
      valuation.Reads (base ++ reduction.productions) := fun valuation reads => (grown ▸ reads).left apart
  constructor
  case written =>
    rw [← Block.replaceAll_blocks Solid.isWord repeats iterated.composed letters, ← iterated.written, ← named]
    rfl
  case composed =>
    intro block member
    obtain ⟨old, inside, rfl⟩ := List.mem_map.mp member
    apply (iterated.composed old inside).settle
    exact isWord_of_isAlpha (isAlpha_of_isUpper (Symbol.isUpper_letterAt _))
  case numbered => exact Reduction.numbered_visitStar iterated.numbered piece.text
  case narrowed => exact fun valuation reads => iterated.narrowed valuation (before valuation reads)
  case meaning =>
    intro valuation reads
    have solid : [] ∉ valuation.spell body := Valuation.nil_notMem_spell repeats.present fun c member =>
      (repeats.composed c member).2 valuation (iterated.narrowed valuation (before valuation reads))
    have closure := ((grown ▸ reads).right apart).repetition solid
    rw [named, Valuation.spell_singleton] at closure
    rw [← iterated.meaning valuation (before valuation reads), List.map_map]
    apply congrArg (fun pieces : List (Language Char) => pieces.prod * valuation.spell word)
    apply List.map_congr_left
    intro block member
    apply Block.meaning_settle
    intro other pending same
    obtain ⟨otherBody, second⟩ := pending ▸ iterated.composed block member
    rw [closure, second.meaning, ← second.body_eq Solid.isWord, same, bodied]

/-- The visits settle every block whose text they pass. -/
theorem Iterated.foldl (iterated : Iterated start base word blocks reduction) (letters : ∀ c ∈ word, Solid base c)
    (each : ∀ group ∈ groups, ∃ piece body, Repeats (Solid base) piece body ∧ piece.text = group)
    (few : reduction.supply.position + groups.length ≤ 25) :
    ∃ settled, Iterated start base word settled (groups.foldl (Reduction.visitStar .separate) reduction) ∧
      ∀ piece, .pending piece ∈ settled → .pending piece ∈ blocks ∧ piece.text ∉ groups := by
  induction groups generalizing reduction blocks with
  | nil => exact ⟨blocks, iterated, fun piece member => ⟨member, by simp⟩⟩
  | cons group groups ih =>
    rw [List.length_cons] at few
    obtain ⟨piece, body, repeats, rfl⟩ := each group (by simp)
    have next := iterated.visit letters repeats (by omega)
    have less : (reduction.visitStar .separate piece.text).supply.position + groups.length ≤ 25 := by
      simp only [Reduction.visitStar, Supply.advance, Supply.advanceBy]
      omega
    obtain ⟨settled, last, left⟩ := ih next (fun other member => each other (by simp [member])) less
    refine ⟨settled, last, ?_⟩
    intro other member
    obtain ⟨stayed, absent⟩ := left other member
    obtain ⟨block, inside, same⟩ := List.mem_map.mp stayed
    obtain ⟨rfl, differ⟩ := Block.pending_of_settle same
    exact ⟨inside, by simp [differ, absent]⟩

end Flat

/-- After both phases the expression is a text that stands for what the flat expression stood for. -/
theorem SumProgress.Faithful.reduceStars {start : Flat} {last : SumProgress} (faithful : last.Faithful start)
    (absent : '+' ∉ last.expression)
    (few : (reduceStars .separate last.expression last.supply).supply.position ≤ 25) {valuation : Valuation}
    (reads : valuation.Reads
      (last.productions ++ (SumStar.reduceStars .separate last.expression last.supply).productions)) :
    valuation.spell (SumStar.reduceStars .separate last.expression last.supply).expression =
      start.meaning valuation := by
  obtain ⟨⟨starred, tail⟩, written, ⟨pieces, behind⟩, means⟩ := faithful.flat
  rw [written] at absent
  obtain ⟨word, rfl, letters⟩ := Flat.Tail.eq_last behind fun plus => absent (List.mem_append_right _ plus)
  have repeats : ∀ piece ∈ starred, ∃ body, Flat.Repeats (Solid last.productions) piece body := by
    intro piece member
    apply Flat.Starred.exists_repeats (pieces piece member)
    exact fun plus => absent (List.mem_append_left _ (List.mem_flatMap.mpr ⟨piece, member, plus⟩))
  have found : StarGroup.findAll last.expression = starred.map Flat.Starred.text := by
    rw [written]
    exact Flat.findAll_starred Solid.isWord repeats letters
  have iterated : Flat.Iterated start last.productions word (starred.map .pending)
      ⟨last.expression, last.supply, []⟩ := by
    rw [written]
    exact Flat.iterated_initial faithful.numbered repeats means
  have each : ∀ group ∈ (StarGroup.findAll last.expression).eraseDups,
      ∃ piece body, Flat.Repeats (Solid last.productions) piece body ∧ piece.text = group := by
    intro group member
    rw [List.mem_eraseDups, found] at member
    obtain ⟨piece, inside, rfl⟩ := List.mem_map.mp member
    obtain ⟨body, one⟩ := repeats piece inside
    exact ⟨piece, body, one, rfl⟩
  have bound : last.supply.position + (StarGroup.findAll last.expression).eraseDups.length ≤ 25 := by
    rwa [Reduction.position_reduceStars] at few
  obtain ⟨settled, final, left⟩ := iterated.foldl letters each bound
  have done : ∀ piece, .pending piece ∉ settled := by
    intro piece member
    obtain ⟨stayed, missing⟩ := left piece member
    obtain ⟨other, inside, same⟩ := List.mem_map.mp stayed
    cases same
    exact missing (by rw [List.mem_eraseDups, found]; exact List.mem_map_of_mem inside)
  have expression : (SumStar.reduceStars .separate last.expression last.supply).expression = _ := final.written
  rw [expression, Valuation.spell_append, Flat.Block.spell_flatMap done]
  exact final.meaning valuation reads

end SumStar
