import Mathlib.Computability.Language
import Mathlib.Order.CompletePartialOrder
import SumStar.Matching.Span

/-! A span is extended over a language when the characters between the two ends spell a text of
it. Extensions compose the way the operations on languages do, which is all that the matcher
relies on. -/

namespace SumStar

open Computability Relation

namespace Text

/-- The characters from one place to another. -/
def slice (text : Text) (first last : Nat) : Text :=
  (text.take last).drop first

theorem slice_self (text : Text) (place : Nat) : text.slice place place = [] := by
  simp [slice]

theorem slice_zero (text : Text) (last : Nat) : text.slice 0 last = text.take last := by
  simp [slice]

theorem slice_append {text : Text} {first middle last : Nat} (before : first ≤ middle)
    (after : middle ≤ last) : text.slice first middle ++ text.slice middle last = text.slice first last := by
  have shorter : text.take middle = (text.take last).take middle := by
    rw [List.take_take, Nat.min_eq_left after]
  rw [slice, slice, slice, shorter, ← List.drop_take_append_drop (text.take last) first (middle - first),
    Nat.add_sub_cancel' before, List.drop_take]

theorem length_slice {text : Text} {first last : Nat} (inside : last ≤ text.length) :
    (text.slice first last).length = last - first := by
  rw [slice, List.length_drop, List.length_take, Nat.min_eq_left inside]

/-- A slice that is put together from two texts is cut where the first one ends. -/
theorem slice_of_append {text piece rest : Text} {first last : Nat} (inside : last ≤ text.length)
    (ordered : first ≤ last) (spelled : piece ++ rest = text.slice first last) :
    first + piece.length ≤ last ∧ text.slice first (first + piece.length) = piece ∧
      text.slice (first + piece.length) last = rest := by
  have total : piece.length + rest.length = last - first := by
    rw [← length_slice inside, ← spelled, List.length_append]
  have bound : first + piece.length ≤ last := by omega
  have joined : text.slice first (first + piece.length) ++ text.slice (first + piece.length) last =
      piece ++ rest := by
    rw [spelled]
    exact slice_append (Nat.le_add_right first piece.length) bound
  have equal : (text.slice first (first + piece.length)).length = piece.length := by
    rw [length_slice (bound.trans inside)]
    omega
  exact ⟨bound, List.append_inj joined equal⟩

theorem slice_succ {text : Text} {c : Char} {place : Nat} (found : text[place]? = some c) :
    text.slice place (place + 1) = [c] := by
  rw [slice, List.take_add_one, found, List.drop_append_of_le_length]
  · simp [List.drop_eq_nil_of_le]
  · rw [List.length_take]
    have := (List.getElem?_eq_some_iff.mp found).1
    omega

end Text

namespace Span

def Inside (text : Text) (span : Span) : Prop :=
  span.stop ≤ text.length

structure Extends (text : Text) (language : Language Char) (origin span : Span) : Prop where
  start : span.start = origin.start
  forward : origin.stop ≤ span.stop
  inside : span.Inside text
  spells : text.slice origin.stop span.stop ∈ language

variable {text : Text} {first second language : Language Char} {origin span : Span}

theorem Extends.eq_of_stop (extension : Extends text language origin span) (still : span.stop = origin.stop) :
    span = origin := by
  cases span
  cases origin
  simp only [mk.injEq]
  exact ⟨extension.start, still⟩

theorem Extends.stop_lt (extension : Extends text language origin span) (other : span ≠ origin) :
    origin.stop < span.stop := by
  have moved : span.stop ≠ origin.stop := fun still => other (extension.eq_of_stop still)
  have forward := extension.forward
  omega

theorem extends_one (inside : origin.Inside text) : Extends text 1 origin span ↔ span = origin := by
  constructor
  · intro extension
    have short : (text.slice origin.stop span.stop).length = span.stop - origin.stop :=
      Text.length_slice extension.inside
    rw [(Language.mem_one _).mp extension.spells, List.length_nil] at short
    have forward := extension.forward
    apply extension.eq_of_stop
    omega
  · intro same
    subst same
    exact ⟨rfl, Nat.le_refl _, inside, by rw [Text.slice_self]; exact Language.nil_mem_one⟩

theorem extends_add :
    Extends text (first + second) origin span ↔
      Extends text first origin span ∨ Extends text second origin span := by
  constructor
  · intro ⟨start, forward, inside, spells⟩
    exact spells.imp (fun here => ⟨start, forward, inside, here⟩)
      (fun there => ⟨start, forward, inside, there⟩)
  · intro either
    cases either with
    | inl extension => exact ⟨extension.start, extension.forward, extension.inside, Or.inl extension.spells⟩
    | inr extension => exact ⟨extension.start, extension.forward, extension.inside, Or.inr extension.spells⟩

theorem extends_mul :
    Extends text (first * second) origin span ↔
      ∃ middle, Extends text first origin middle ∧ Extends text second middle span := by
  constructor
  · intro ⟨start, forward, inside, spells⟩
    obtain ⟨piece, here, rest, there, spelled⟩ := Language.mem_mul.mp spells
    obtain ⟨bound, left, right⟩ := Text.slice_of_append inside forward spelled
    refine ⟨⟨origin.start, origin.stop + piece.length⟩, ⟨rfl, Nat.le_add_right _ _, bound.trans inside, ?_⟩,
      ⟨start, bound, inside, ?_⟩⟩
    · exact left.symm ▸ here
    · exact right.symm ▸ there
  · intro ⟨middle, here, there⟩
    refine ⟨there.start.trans here.start, here.forward.trans there.forward, there.inside, ?_⟩
    rw [← Text.slice_append here.forward there.forward]
    exact Language.append_mem_mul here.spells there.spells

theorem extends_singleton {c : Char} :
    Extends text {[c]} origin span ↔ text[origin.stop]? = some c ∧ span = origin.advance 1 := by
  constructor
  · intro ⟨start, forward, inside, spells⟩
    have spelled : text.slice origin.stop span.stop = [c] := spells
    have length : (text.slice origin.stop span.stop).length = span.stop - origin.stop :=
      Text.length_slice inside
    rw [spelled, List.length_singleton] at length
    have stop : span.stop = origin.stop + 1 := by omega
    have found : text[origin.stop]? = some c := by
      have head : (text.slice origin.stop span.stop)[0]? = some c := by simp [spelled]
      rw [Text.slice, List.getElem?_drop, List.getElem?_take_of_lt (by omega)] at head
      simpa using head
    refine ⟨found, ?_⟩
    cases span
    simp_all [advance]
  · intro ⟨found, moved⟩
    subst moved
    have below := (List.getElem?_eq_some_iff.mp found).1
    refine ⟨rfl, Nat.le_add_right _ _, below, ?_⟩
    simp only [advance, Text.slice_succ found]
    rfl

theorem Extends.mono (extension : Extends text first origin span) (smaller : first ≤ second) :
    Extends text second origin span :=
  ⟨extension.start, extension.forward, extension.inside, smaller extension.spells⟩

private theorem reaches_of_flatten {pieces : List Text} (members : ∀ piece ∈ pieces, piece ∈ language)
    (inside : origin.Inside text) (extension : Extends text {pieces.flatten} origin span) :
    ReflTransGen (Extends text language) origin span := by
  induction pieces generalizing origin with
  | nil => rw [(extends_one inside).mp extension]
  | cons piece pieces ih =>
    have apart : ({(piece :: pieces).flatten} : Language Char) ≤ {piece} * {pieces.flatten} := by
      rintro _ rfl
      exact Language.append_mem_mul rfl rfl
    obtain ⟨middle, here, there⟩ := extends_mul.mp (extension.mono apart)
    have chosen : ({piece} : Language Char) ≤ language := by
      rintro _ rfl
      exact members _ (by simp)
    exact .head (here.mono chosen) (ih (fun other member => members other (by simp [member])) here.inside there)

theorem extends_kstar (inside : origin.Inside text) :
    Extends text (KStar.kstar language) origin span ↔
      ReflTransGen (Extends text language) origin span := by
  constructor
  · intro ⟨start, forward, within, spells⟩
    obtain ⟨pieces, spelled, members⟩ := Language.mem_kstar.mp spells
    exact reaches_of_flatten members inside ⟨start, forward, within, spelled⟩
  · intro reached
    induction reached with
    | refl => exact ((extends_one inside).mpr rfl).mono one_le_kstar
    | tail _ last ih => exact (extends_mul.mpr ⟨_, ih, last⟩).mono kstar_mul_le_kstar

end Span
end SumStar
