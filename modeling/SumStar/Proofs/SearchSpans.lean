import SumStar.Proofs.SpanExtension
import SumStar.Proofs.SumGroups

/-! A search with the places where it finds its pieces. What stands between the two ends of a span is the
piece found there, and a place in a text behind another one is counted on from there. The spans are
those that are leftmost, one behind the other. -/

namespace SumStar

def Span.shift (span : Span) (count : Nat) : Span :=
  ⟨span.start + count, span.stop + count⟩

namespace Text

/-- Takes the same steps as `findAfter`, counting the characters it passes. -/
def spansAfter (recognise : Text → Option Text) : Nat → Text → List Span
  | _, [] => []
  | skipped + 1, _ :: rest => (spansAfter recognise skipped rest).map (·.shift 1)
  | 0, c :: rest =>
    match recognise (c :: rest) with
    | some piece => ⟨0, piece.length⟩ :: (spansAfter recognise (piece.length - 1) rest).map (·.shift 1)
    | none => (spansAfter recognise 0 rest).map (·.shift 1)

/-- The spans of the pieces found, in the order of the text. -/
def findSpans (recognise : Text → Option Text) (text : Text) : List Span :=
  spansAfter recognise 0 text

variable {recognise : Text → Option Text} {piece rest : Text} {c : Char}

theorem shift_zero (spans : List Span) : spans.map (·.shift 0) = spans := by
  simp [Span.shift]

theorem shift_shift (spans : List Span) (first second : Nat) :
    (spans.map (·.shift first)).map (·.shift second) = spans.map (·.shift (first + second)) := by
  rw [List.map_map]
  exact List.map_congr_left fun span _ => by simp [Span.shift, Nat.add_assoc]

theorem spansAfter_eq_shift (recognise : Text → Option Text) (skipped : Nat) (text : Text) :
    spansAfter recognise skipped text = (findSpans recognise (text.drop skipped)).map (·.shift skipped) := by
  induction skipped generalizing text with
  | zero => simp [findSpans, Span.shift]
  | succ skipped ih =>
    cases text with
    | nil => rfl
    | cons c rest => rw [spansAfter, ih, shift_shift, List.drop_succ_cons]

theorem findSpans_cons (missed : recognise (c :: rest) = none) :
    findSpans recognise (c :: rest) = (findSpans recognise rest).map (·.shift 1) := by
  simp only [findSpans, spansAfter, missed]

theorem findSpans_append (present : piece ≠ []) (found : recognise (piece ++ rest) = some piece) :
    findSpans recognise (piece ++ rest) =
      ⟨0, piece.length⟩ :: (findSpans recognise rest).map (·.shift piece.length) := by
  obtain ⟨c, tail, rfl⟩ := List.exists_cons_of_ne_nil present
  rw [List.cons_append] at found ⊢
  simp only [findSpans, spansAfter, found]
  rw [spansAfter_eq_shift, shift_shift]
  simp [findSpans]

theorem shift_findSpans_cons (missed : recognise (c :: rest) = none) (place : Nat) :
    (findSpans recognise (c :: rest)).map (·.shift place) = (findSpans recognise rest).map (·.shift (place + 1)) := by
  rw [findSpans_cons missed, shift_shift, Nat.add_comm]

theorem shift_findSpans_append (present : piece ≠ []) (found : recognise (piece ++ rest) = some piece) (place : Nat) :
    (findSpans recognise (piece ++ rest)).map (·.shift place) =
      ⟨place, place + piece.length⟩ :: (findSpans recognise rest).map (·.shift (place + piece.length)) := by
  rw [findSpans_append present found, List.map_cons, shift_shift]
  simp [Span.shift, Nat.add_comm]

theorem slice_shift (first text : Text) (span : Span) :
    (first ++ text).slice (span.shift first.length).start (span.shift first.length).stop =
      text.slice span.start span.stop := by
  rw [slice, slice, Span.shift, Nat.add_comm span.stop, Nat.add_comm span.start, List.take_length_add_append,
    ← List.drop_drop, List.drop_left]

/-- What stands between the ends of the spans are the pieces that the search finds. -/
theorem slice_findSpans
    (front : ∀ {text piece}, recognise text = some piece → piece ≠ [] ∧ piece <+: text) (text : Text) :
    (findSpans recognise text).map (fun span => text.slice span.start span.stop) = findAll recognise text := by
  have behind : ∀ (first text : Text) (spans : List Span),
      (spans.map (·.shift first.length)).map (fun span => (first ++ text).slice span.start span.stop) =
        spans.map fun span => text.slice span.start span.stop := by
    intro first text spans
    rw [List.map_map]
    exact List.map_congr_left fun span _ => slice_shift first text span
  induction text using search_induction front with
  | nil => rfl
  | missed c rest missed ih => rw [findSpans_cons missed, findAll_cons_of_none missed, ← ih, ← behind [c] rest]; rfl
  | taken piece rest present found ih =>
    rw [findSpans_append present found, findAll_append present found, ← ih, List.map_cons, behind piece rest, slice_zero,
      List.take_left]

/-- The spans of a search, said by places: each is the leftmost place behind the one before where the recogniser
takes something, and behind the last one there is none. -/
inductive Leftmost (recognise : Text → Option Text) : Nat → Text → List Span → Prop where
  | nowhere {place : Nat} {text : Text} : (∀ later, later <:+ text → recognise later = none) →
      Leftmost recognise place text []
  | next {place : Nat} {before piece rest : Text} {spans : List Span} :
      (∀ later, later <:+ before → later ≠ [] → recognise (later ++ (piece ++ rest)) = none) →
      recognise (piece ++ rest) = some piece →
      Leftmost recognise (place + before.length + piece.length) rest spans →
      Leftmost recognise place (before ++ (piece ++ rest))
        (⟨place + before.length, place + before.length + piece.length⟩ :: spans)

theorem findSpans_passed {before text : Text}
    (missed : ∀ later, later <:+ before → later ≠ [] → recognise (later ++ text) = none) :
    findSpans recognise (before ++ text) = (findSpans recognise text).map (·.shift before.length) := by
  induction before with
  | nil => exact (shift_zero _).symm
  | cons c before ih =>
    have here : recognise (c :: (before ++ text)) = none := missed (c :: before) (List.suffix_refl _) (List.cons_ne_nil c _)
    have behind := ih fun later inside => missed later (inside.trans (List.suffix_cons c before))
    rw [List.cons_append, findSpans_cons here, behind, shift_shift, List.length_cons]

/-- A text is passed over where the recogniser takes nothing. -/
theorem Leftmost.cons {place : Nat} {spans : List Span} (missed : recognise (c :: rest) = none)
    (leftmost : Leftmost recognise (place + 1) rest spans) : Leftmost recognise place (c :: rest) spans := by
  cases leftmost with
  | nowhere absent => exact .nowhere fun later inside => (List.suffix_cons_iff.mp inside).elim (· ▸ missed) (absent later)
  | @next _ before piece rest spans absent found later =>
    have moved : place + 1 + before.length = place + (c :: before).length := by
      rw [List.length_cons]
      omega
    rw [moved] at later ⊢
    refine .next (fun behind inside present => ?_) found later
    rcases List.suffix_cons_iff.mp inside with rfl | inside
    · exact missed
    · exact absent behind inside present

/-- The search finds the leftmost spans and no others. -/
theorem leftmost_iff (front : ∀ {text piece}, recognise text = some piece → piece ≠ [] ∧ piece <+: text)
    {place : Nat} {text : Text} {spans : List Span} :
    Leftmost recognise place text spans ↔ spans = (findSpans recognise text).map (·.shift place) := by
  constructor
  · intro leftmost
    induction leftmost with
    | @nowhere place text absent =>
      have passed : findSpans recognise (text ++ []) = [] := findSpans_passed fun later inside _ => by
        rw [List.append_nil]
        exact absent later inside
      rw [List.append_nil] at passed
      rw [passed]
      rfl
    | @next place before piece rest spans absent found _ ih =>
      rw [findSpans_passed absent, shift_shift, shift_findSpans_append (front found).1 found, ih, Nat.add_comm place]
  · rintro rfl
    induction text using search_induction front generalizing place with
    | nil =>
      refine .nowhere fun later inside => ?_
      rw [List.suffix_nil.mp inside]
      cases found : recognise [] with
      | none => rfl
      | some piece => exact absurd (List.prefix_nil.mp (front found).2) (front found).1
    | missed c rest missed ih =>
      rw [shift_findSpans_cons missed]
      exact .cons missed ih
    | taken piece rest present found ih =>
      rw [shift_findSpans_append present found]
      have leftmost : Leftmost recognise place ([] ++ (piece ++ rest)) _ :=
        .next (fun _ inside some => absurd (List.suffix_nil.mp inside) some) found ih
      exact leftmost

end Text

end SumStar
