import SumStar.Proofs.ShapeRests
import SumStar.Proofs.SumGroups

/-! The shape of a sum group and what its preferred way takes. The links of a chain can be taken in one way
only, so the preferred way takes as many as there are, and then a parenthesis if one is there. If the
first side of the shape leaves nothing, no word character goes on behind the parenthesis, and the
second side has no more than one to take. So the recogniser takes what the preferred way takes. -/

namespace SumStar.SumGroup

open Text Shape

/-- A further word character of a chain, with or without a `+`. -/
def link : Shape :=
  sequence (optional (literal '+')) word

/-- The first side: a chain with optional parentheses. -/
def chained : Shape :=
  sequence (optional (literal '('))
    (sequence word (sequence (atLeastOnce link) (optional (literal ')'))))

/-- The second side: a parenthesised run in front of `+`. -/
def enclosed : Shape :=
  sequence (literal '(') (sequence (atLeastOnce word) (sequence (literal ')') (literal '+')))

theorem sum_eq : Shape.sum = choice chained enclosed := rfl

variable {text piece tail closing rest behind : Text} {c : Char}

theorem rests_link_word (own : isWord c = true) (rest : Text) : link.rests (c :: rest) = [rest] := by
  have other := ne_of_isWord own isWord_plus
  simp [link, rests, rests_optional_of_ne other, word, own]

theorem rests_link_plus (own : isWord c = true) (rest : Text) : link.rests ('+' :: c :: rest) = [rest] := by
  simp [link, rests, rests_optional_self, word, own, isWord_plus]

theorem rests_link_of_stops (stops : Stops text) : link.rests text = [] := by
  cases text with
  | nil => rfl
  | cons c rest =>
    by_cases plus : c = '+'
    · subst plus
      cases rest with
      | nil => simp [link, rests, rests_optional_self, word, isWord_plus]
      | cons d rest => simp [link, rests, rests_optional_self, word, isWord_plus, stops.plus d rest rfl]
    · simp [link, rests, rests_optional_of_ne plus, word, stops.word c rest rfl]

theorem prefers_link_word (own : isWord c = true) (rest : Text) : Prefers link (c :: rest) rest :=
  congrArg List.head? (rests_link_word own rest)

theorem prefers_link_plus (own : isWord c = true) (rest : Text) : Prefers link ('+' :: c :: rest) rest :=
  congrArg List.head? (rests_link_plus own rest)

theorem prefers_links (linked : Linked tail) (stops : Stops rest) : Prefers (repeated link) (tail ++ rest) rest := by
  induction linked with
  | nil => exact prefers_repeated_of_refused (rests_link_of_stops stops)
  | word own _ ih => exact (prefers_link_word own _).repeated (Nat.lt_succ_self _) ih
  | plus own _ ih => exact (prefers_link_plus own _).repeated (Nat.lt_succ_of_lt (Nat.lt_succ_self _)) ih

theorem prefers_someLinks (linked : Linked tail) (long : tail ≠ []) (stops : Stops rest) :
    Prefers (atLeastOnce link) (tail ++ rest) rest := by
  cases linked with
  | nil => exact False.elim (long rfl)
  | word own linked => exact (prefers_link_word own _).sequence (prefers_links linked stops)
  | plus own linked => exact (prefers_link_plus own _).sequence (prefers_links linked stops)

theorem prefers_closing (closes : Closes closing rest) : Prefers (optional (literal ')')) (closing ++ rest) rest := by
  cases closes with
  | parenthesis => exact Prefers.choice (prefers_literal ')' rest) empty
  | nothing _ other =>
    apply prefers_optional_of_refused
    refine List.eq_nil_iff_forall_not_mem.mpr fun left member => other ?_
    rw [List.nil_append] at member
    exact congrArg List.head? (eq_cons_of_mem_literal member)

theorem prefers_opening (opens : opening = [] ∨ opening = ['(']) (own : isWord c = true) (rest : Text) :
    Prefers (optional (literal '(')) (opening ++ c :: rest) (c :: rest) := by
  rcases opens with rfl | rfl
  · exact congrArg List.head? (rests_optional_of_ne (ne_of_isWord own isWord_opening) rest)
  · exact congrArg List.head? (rests_optional_self '(' (c :: rest))

theorem prefers_chained (opens : opening = [] ∨ opening = ['(']) (own : isWord c = true) (linked : Linked tail)
    (long : tail ≠ []) (closes : Closes closing rest) :
    Prefers chained (opening ++ c :: (tail ++ (closing ++ rest))) rest :=
  .sequence (prefers_opening opens own _)
    (.sequence (prefers_one own _)
      (.sequence (prefers_someLinks linked long closes.stops) (prefers_closing closes)))

/-- The first side leaves nothing where no word character is followed by a link. -/
theorem rests_chained_eq_nil_iff :
    chained.rests text = [] ↔
      ∀ opening c rest, opening = [] ∨ opening = ['('] → isWord c = true → text = opening ++ c :: rest → Stops rest := by
  constructor
  · rintro refused opening c rest opens own rfl
    obtain ⟨tail, behind, rfl, linked, stops⟩ := exists_chainTail rest
    by_cases long : tail = []
    · rwa [long]
    · obtain ⟨closing, rest, rfl, closes⟩ := exists_closes stops
      exact False.elim ((prefers_chained opens own linked long closes).rests_ne_nil refused)
  · intro single
    refine List.eq_nil_iff_forall_not_mem.mpr fun rest member => ?_
    obtain ⟨_, opened, begun⟩ := mem_sequence.mp member
    obtain ⟨_, first, continued⟩ := mem_sequence.mp begun
    obtain ⟨_, links, _⟩ := mem_sequence.mp continued
    obtain ⟨_, next, _⟩ := mem_sequence.mp links
    obtain ⟨opening, opens, rfl⟩ := exists_of_mem_optional opened
    obtain ⟨c, own, rfl⟩ := exists_of_mem_one first
    rw [rests_link_of_stops (single opening c _ opens own rfl)] at next
    cases next

theorem exists_of_mem_enclosed (member : rest ∈ enclosed.rests text) :
    ∃ c run, IsWordly (c :: run) ∧ text = '(' :: c :: (run ++ ')' :: '+' :: rest) := by
  obtain ⟨_, opened, begun⟩ := mem_sequence.mp member
  obtain ⟨_, letters, ended⟩ := mem_sequence.mp begun
  obtain ⟨_, first, others⟩ := mem_sequence.mp letters
  obtain ⟨_, closed, signed⟩ := mem_sequence.mp ended
  obtain rfl := eq_cons_of_mem_literal opened
  obtain ⟨c, own, rfl⟩ := exists_of_mem_one first
  obtain ⟨run, wordly, rfl⟩ := exists_of_mem_repeated_one others
  obtain rfl := eq_cons_of_mem_literal closed
  obtain rfl := eq_cons_of_mem_literal signed
  exact ⟨c, run, List.forall_mem_cons.mpr ⟨own, wordly⟩, rfl⟩

theorem exists_single_of_mem_enclosed (refused : chained.rests text = []) (member : rest ∈ enclosed.rests text) :
    ∃ c, isWord c = true ∧ text = ['(', c, ')', '+'] ++ rest := by
  obtain ⟨c, run, wordly, rfl⟩ := exists_of_mem_enclosed member
  obtain ⟨own, letters⟩ := List.forall_mem_cons.mp wordly
  have stops : Stops (run ++ ')' :: '+' :: rest) :=
    rests_chained_eq_nil_iff.mp refused ['('] c _ (Or.inr rfl) own rfl
  cases run with
  | nil => exact ⟨c, own, rfl⟩
  | cons d run =>
    have ended := stops.word d _ rfl
    rw [letters d (by simp)] at ended
    cases ended

theorem prefers_enclosed (own : isWord c = true) (rest : Text) :
    Prefers enclosed (['(', c, ')', '+'] ++ rest) rest := by
  have ended : (one isWord).rests (')' :: '+' :: rest) = [] := by simp [rests, isWord_closing]
  exact .sequence (prefers_literal '(' _)
    (.sequence (.sequence (prefers_one own _) (prefers_repeated_of_refused ended))
      (.sequence (prefers_literal ')' _) (prefers_literal '+' rest)))

theorem rests_chained_single (c : Char) (rest : Text) :
    chained.rests (['(', c, ')', '+'] ++ rest) = [] := by
  refine rests_chained_eq_nil_iff.mpr fun opening d behind opens letter same => ?_
  rcases opens with rfl | rfl
  · exact False.elim (ne_of_isWord letter isWord_opening (List.cons.inj same).1.symm)
  · obtain ⟨_, rfl⟩ := List.cons.inj (List.cons.inj same).2
    exact stops_of_gap isWord_closing (by decide) _

theorem Piece.prefers_sum (stands : Piece piece rest) : Prefers Shape.sum (piece ++ rest) rest := by
  cases stands with
  | chain opens own linked long closes =>
    have taken := (prefers_chained opens own linked long closes).choice enclosed
    simpa [sum_eq] using taken
  | single own => exact (prefers_enclosed own rest).choice_of_refused (rests_chained_single _ rest)

/-- The recogniser takes the piece that the preferred way through the shape takes. -/
theorem take?_sum (text : Text) : Shape.sum.take? text = recognise text := by
  cases found : recognise text with
  | some piece =>
    obtain ⟨rest, rfl, stands⟩ := exists_of_recognise found
    exact stands.prefers_sum.take?_eq
  | none =>
    apply take?_of_refused
    have refused : chained.rests text = [] :=
      rests_chained_eq_nil_iff.mpr fun opening c rest opens own same => stops_of_missed opens own (same ▸ found)
    refine List.eq_nil_iff_forall_not_mem.mpr fun rest member => ?_
    rw [sum_eq, rests, refused, List.nil_append] at member
    obtain ⟨c, own, rfl⟩ := exists_single_of_mem_enclosed refused member
    have stands : Piece ['(', c, ')', '+'] rest := .single own
    rw [recognise_append stands] at found
    cases found

end SumStar.SumGroup
