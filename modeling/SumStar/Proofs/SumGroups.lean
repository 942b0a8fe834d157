import SumStar.Group.Sum
import SumStar.Proofs.WordRuns

/-! What the search for sum groups finds. A piece is described by what it holds and by what stands
behind it; the recogniser finds exactly such pieces. A text in which every piece found is a single
word is one that no further scan can reduce. -/

namespace SumStar

namespace Text

variable {recognise : Text → Option Text}

theorem findAll_append {piece rest : Text} (present : piece ≠ [])
    (found : recognise (piece ++ rest) = some piece) :
    findAll recognise (piece ++ rest) = piece :: findAll recognise rest := by
  cases piece with
  | nil => exact False.elim (present rfl)
  | cons c tail =>
    rw [List.cons_append] at found ⊢
    rw [findAll_cons_of_some found]
    simp

/-- Proofs about a search follow its steps: a piece is passed as a whole, everything else one
character after the other. -/
theorem search_induction
    (front : ∀ {text piece}, recognise text = some piece → piece ≠ [] ∧ piece <+: text)
    {motive : Text → Prop} (nil : motive [])
    (missed : ∀ c rest, recognise (c :: rest) = none → motive rest → motive (c :: rest))
    (taken : ∀ piece rest, piece ≠ [] → recognise (piece ++ rest) = some piece → motive rest →
      motive (piece ++ rest)) (text : Text) : motive text := by
  induction size : text.length using Nat.strongRecOn generalizing text with
  | ind size ih =>
    cases text with
    | nil => exact nil
    | cons c rest =>
      cases found : recognise (c :: rest) with
      | none => exact missed c rest found (ih rest.length (by simp at size; omega) rest rfl)
      | some piece =>
        obtain ⟨present, behind, same⟩ := front found
        rw [← same] at size found ⊢
        have := List.length_pos_iff.mpr present
        exact taken piece behind present found (ih behind.length (by simp at size; omega) behind rfl)

end Text

namespace SumGroup

/-- What may follow a word character within a chain. -/
inductive Linked : Text → Prop where
  | nil : Linked []
  | word {c : Char} {tail : Text} : isWord c = true → Linked tail → Linked (c :: tail)
  | plus {c : Char} {tail : Text} : isWord c = true → Linked tail → Linked ('+' :: c :: tail)

/-- Where a chain ends. -/
structure Stops (text : Text) : Prop where
  word : ∀ c rest, text = c :: rest → isWord c = false
  plus : ∀ c rest, text = '+' :: c :: rest → isWord c = false

theorem stops_nil : Stops [] :=
  ⟨by simp, by simp⟩

theorem chainTail_word {c : Char} (word : isWord c = true) (rest : Text) :
    chainTail (c :: rest) = c :: chainTail rest := by
  rw [chainTail, if_pos word]
  intro d behind plus
  simp [plus, isWord_plus] at word

theorem chainTail_plus {c : Char} (word : isWord c = true) (rest : Text) :
    chainTail ('+' :: c :: rest) = '+' :: c :: chainTail rest := by
  rw [chainTail, if_pos word]

theorem chainTail_of_stops {text : Text} (stops : Stops text) : chainTail text = [] := by
  unfold chainTail
  split
  next c rest => simp [stops.plus c rest rfl]
  next c rest _ => simp [stops.word c rest rfl]
  next => rfl

theorem chainTail_append {tail rest : Text} (linked : Linked tail) (stops : Stops rest) :
    chainTail (tail ++ rest) = tail := by
  induction linked with
  | nil => exact chainTail_of_stops stops
  | word word _ ih => rw [List.cons_append, chainTail_word word, ih]
  | plus word _ ih => rw [List.cons_append, List.cons_append, chainTail_plus word, ih]

theorem exists_chainTail (text : Text) :
    ∃ tail rest, text = tail ++ rest ∧ Linked tail ∧ Stops rest := by
  fun_induction chainTail text with
  | case1 c rest word ih =>
    obtain ⟨tail, behind, rfl, linked, stops⟩ := ih
    exact ⟨'+' :: c :: tail, behind, rfl, .plus word linked, stops⟩
  | case2 c rest gap =>
    exact ⟨[], _, rfl, .nil, by simp [isWord_plus], by simpa using gap⟩
  | case3 c rest other word ih =>
    obtain ⟨tail, behind, rfl, linked, stops⟩ := ih
    exact ⟨c :: tail, behind, rfl, .word word linked, stops⟩
  | case4 c rest other gap =>
    refine ⟨[], _, rfl, .nil, by simpa using gap, ?_⟩
    intro d behind same
    obtain ⟨rfl, rfl⟩ := List.cons.inj same
    exact False.elim (other d behind rfl rfl)
  | case5 => exact ⟨[], [], rfl, .nil, by simp, by simp⟩

/-- What may close a chain in front of a rest: a parenthesis wherever one stands there. -/
inductive Closes : Text → Text → Prop where
  | parenthesis {rest : Text} : Closes [')'] rest
  | nothing {rest : Text} : Stops rest → rest.head? ≠ some ')' → Closes [] rest

/-- A piece that the search takes, and the rest that stands behind it. -/
inductive Piece : Text → Text → Prop where
  | chain {opening tail closing rest : Text} {c : Char} : opening = [] ∨ opening = ['('] →
      isWord c = true → Linked tail → tail ≠ [] → Closes closing rest →
      Piece (opening ++ (c :: tail ++ closing)) rest
  | single {c : Char} {rest : Text} : isWord c = true → Piece ['(', c, ')', '+'] rest

theorem Closes.stops {closing rest : Text} (closes : Closes closing rest) : Stops (closing ++ rest) := by
  cases closes with
  | nothing stops _ => exact stops
  | parenthesis =>
    refine ⟨?_, ?_⟩
    · intro c behind same
      rw [← (List.cons.inj same).1, isWord_closing]
    · intro c behind same
      exact absurd (List.cons.inj same).1 (by decide)

theorem Closes.closing_eq {closing rest : Text} (closes : Closes closing rest) :
    SumGroup.closing (closing ++ rest) = closing := by
  cases closes with
  | parenthesis => rfl
  | nothing _ other =>
    rw [List.nil_append]
    unfold SumGroup.closing
    split
    · exact False.elim (other rfl)
    · rfl

theorem exists_closes {behind : Text} (stops : Stops behind) :
    ∃ closing rest, behind = closing ++ rest ∧ Closes closing rest := by
  by_cases parenthesis : behind.head? = some ')'
  · obtain ⟨rest, rfl⟩ := List.head?_eq_some_iff.mp parenthesis
    exact ⟨[')'], rest, rfl, .parenthesis⟩
  · exact ⟨[], behind, rfl, .nothing stops parenthesis⟩

theorem chain?_append {c : Char} {tail behind : Text} (word : isWord c = true) (linked : Linked tail)
    (long : tail ≠ []) (stops : Stops behind) : chain? (c :: tail ++ behind) = some (c :: tail) := by
  have taken := chainTail_append linked stops
  rw [List.cons_append, chain?, if_pos word, taken]
  cases tail with
  | nil => exact False.elim (long rfl)
  | cons _ _ => rfl

theorem closedChain?_append {c : Char} {tail closing rest : Text} (word : isWord c = true)
    (linked : Linked tail) (long : tail ≠ []) (closes : Closes closing rest) :
    closedChain? (c :: tail ++ closing ++ rest) = some (c :: tail ++ closing) := by
  rw [List.append_assoc, closedChain?, chain?_append word linked long closes.stops, Option.map_some,
    List.drop_left, closes.closing_eq]

theorem chain?_of_stops {c : Char} {behind : Text} (stops : Stops behind) : chain? (c :: behind) = none := by
  rw [chain?, chainTail_of_stops stops]
  split <;> rfl

theorem closedChain?_of_stops {c : Char} {behind : Text} (stops : Stops behind) : closedChain? (c :: behind) = none := by
  rw [closedChain?, chain?_of_stops stops]
  rfl

theorem closedChain?_of_gap {c : Char} (gap : isWord c = false) (behind : Text) : closedChain? (c :: behind) = none := by
  simp [closedChain?, chain?, gap]

theorem exists_of_closedChain? {text piece : Text} (found : closedChain? text = some piece) :
    ∃ c tail closing rest, text = piece ++ rest ∧ piece = c :: tail ++ closing ∧ isWord c = true ∧
      Linked tail ∧ tail ≠ [] ∧ Closes closing rest := by
  cases text with
  | nil => cases found
  | cons c text =>
    obtain ⟨tail, behind, rfl, linked, stops⟩ := exists_chainTail text
    obtain ⟨closing, rest, rfl, closes⟩ := exists_closes stops
    cases word : isWord c with
    | false => simp [closedChain?, chain?, word] at found
    | true =>
      by_cases long : tail = []
      · rw [long, List.nil_append, closedChain?_of_stops stops] at found
        cases found
      · have known := closedChain?_append word linked long closes
        rw [List.append_assoc, List.cons_append, found] at known
        cases known
        exact ⟨c, tail, closing, rest, by simp, rfl, word, linked, long, closes⟩

theorem exists_of_single? {text piece : Text} (found : single? text = some piece) :
    ∃ c rest, text = piece ++ rest ∧ piece = ['(', c, ')', '+'] ∧ isWord c = true := by
  unfold single? at found
  split at found
  next c rest =>
    split at found
    next word =>
      cases found
      exact ⟨c, rest, rfl, rfl, word⟩
    next => cases found
  next => cases found

theorem exists_of_recognise {text piece : Text} (found : recognise text = some piece) :
    ∃ rest, text = piece ++ rest ∧ Piece piece rest := by
  unfold recognise at found
  split at found
  next rest =>
    split at found
    next group chain =>
      cases found
      obtain ⟨c, tail, closing, behind, rfl, rfl, word, linked, long, closes⟩ := exists_of_closedChain? chain
      exact ⟨behind, rfl, .chain (Or.inr rfl) word linked long closes⟩
    next =>
      obtain ⟨c, behind, same, rfl, word⟩ := exists_of_single? found
      exact ⟨behind, same, .single word⟩
  next =>
    obtain ⟨c, tail, closing, behind, rfl, rfl, word, linked, long, closes⟩ := exists_of_closedChain? found
    exact ⟨behind, rfl, .chain (Or.inl rfl) word linked long closes⟩

theorem recognise_append {piece rest : Text} (stands : Piece piece rest) :
    recognise (piece ++ rest) = some piece := by
  cases stands with
  | @single c rest word =>
    have closes : Closes [')'] ('+' :: rest) := .parenthesis
    have stops : Stops (')' :: '+' :: rest) := closes.stops
    have missed : closedChain? (c :: ')' :: '+' :: rest) = none := closedChain?_of_stops stops
    simp [recognise, missed, single?, word]
  | @chain opening tail closing rest c opens word linked long closes =>
    have chain := closedChain?_append word linked long closes
    rcases opens with rfl | rfl
    · have other : c ≠ '(' := ne_of_isWord word isWord_opening
      rw [List.nil_append]
      unfold recognise
      split
      next heq => exact False.elim (other (List.cons.inj heq).1)
      next => exact chain
    · change recognise ('(' :: (c :: tail ++ closing ++ rest)) = some ('(' :: (c :: tail ++ closing))
      rw [recognise, chain]

theorem recognise_eq_some_iff {text piece : Text} :
    recognise text = some piece ↔ ∃ rest, text = piece ++ rest ∧ Piece piece rest := by
  constructor
  · exact exists_of_recognise
  · rintro ⟨rest, rfl, stands⟩
    exact recognise_append stands

theorem recognise_front {text piece : Text} (found : recognise text = some piece) :
    piece ≠ [] ∧ piece <+: text := by
  obtain ⟨rest, same, stands⟩ := recognise_eq_some_iff.mp found
  refine ⟨?_, rest, same.symm⟩
  cases stands <;> simp

theorem piece_of_recognise {piece rest : Text} (found : recognise (piece ++ rest) = some piece) :
    Piece piece rest := by
  obtain ⟨behind, same, stands⟩ := recognise_eq_some_iff.mp found
  exact List.append_cancel_left same ▸ stands

theorem findAll_append {piece rest : Text} (stands : Piece piece rest) :
    findAll (piece ++ rest) = piece :: findAll rest := by
  have found := recognise_append stands
  exact Text.findAll_append (recognise_front found).1 found

theorem findAll_cons {c : Char} {rest : Text} (missed : recognise (c :: rest) = none) :
    findAll (c :: rest) = findAll rest :=
  Text.findAll_cons_of_none missed

theorem stops_of_gap {c : Char} (gap : isWord c = false) (other : c ≠ '+') (rest : Text) : Stops (c :: rest) := by
  constructor
  · intro d behind same
    rwa [← (List.cons.inj same).1]
  · intro d behind same
    exact False.elim (other (List.cons.inj same).1)

private theorem recognise_cons {c : Char} (other : c ≠ '(') (rest : Text) :
    recognise (c :: rest) = closedChain? (c :: rest) := by
  unfold recognise
  split
  next same => exact False.elim (other (List.cons.inj same).1)
  next => rfl

theorem recognise_of_gap {c : Char} (gap : isWord c = false) (other : c ≠ '(') (rest : Text) :
    recognise (c :: rest) = none := by
  rw [recognise_cons other]
  exact closedChain?_of_gap gap rest

theorem recognise_of_stops {c : Char} {rest : Text} (other : c ≠ '(') (stops : Stops rest) :
    recognise (c :: rest) = none := by
  rw [recognise_cons other]
  exact closedChain?_of_stops stops

private theorem recognise_opening {text : Text} (missed : closedChain? text = none)
    (apart : ∀ c rest, isWord c = true → text ≠ c :: ')' :: '+' :: rest) : recognise ('(' :: text) = none := by
  rw [recognise, missed]
  change single? ('(' :: text) = none
  cases found : single? ('(' :: text) with
  | none => rfl
  | some piece =>
    obtain ⟨c, rest, same, rfl, word⟩ := exists_of_single? found
    exact False.elim (apart c rest word (List.cons.inj same).2)

theorem recognise_opening_gap {c : Char} (gap : isWord c = false) (rest : Text) :
    recognise ('(' :: c :: rest) = none := by
  apply recognise_opening (closedChain?_of_gap gap rest)
  intro d behind word same
  rw [← (List.cons.inj same).1, gap] at word
  cases word

theorem recognise_opened {rest : Text} (c : Char) (stops : Stops rest) (apart : ∀ behind, rest ≠ ')' :: '+' :: behind) :
    recognise ('(' :: c :: rest) = none := by
  apply recognise_opening (closedChain?_of_stops stops)
  intro d behind _ same
  exact apart behind (List.cons.inj same).2

theorem stops_of_missed {opening rest : Text} {c : Char} (opens : opening = [] ∨ opening = ['('])
    (word : isWord c = true) (missed : recognise (opening ++ c :: rest) = none) : Stops rest := by
  obtain ⟨tail, behind, rfl, linked, stops⟩ := exists_chainTail rest
  by_cases long : tail = []
  · rw [long]
    exact stops
  · obtain ⟨closing, rest, rfl, closes⟩ := exists_closes stops
    have found := recognise_append (.chain opens word linked long closes)
    simp [missed] at found

theorem infix_of_mem_findAll {text piece : Text} (member : piece ∈ findAll text) : piece <:+: text := by
  obtain ⟨place, behind, found⟩ := Text.exists_recognise_of_mem_findAll member
  exact (recognise_front found).2.isInfix.trans behind.isInfix

theorem exists_piece_of_mem_findAll {text piece : Text} (member : piece ∈ findAll text) : ∃ rest, Piece piece rest := by
  obtain ⟨_, _, found⟩ := Text.exists_recognise_of_mem_findAll member
  obtain ⟨rest, _, stands⟩ := recognise_eq_some_iff.mp found
  exact ⟨rest, stands⟩

theorem Piece.ne_nil {piece rest : Text} (stands : Piece piece rest) : piece ≠ [] := by
  cases stands <;> simp

theorem ne_nil_of_mem_findAll {text piece : Text} (member : piece ∈ findAll text) : piece ≠ [] := by
  obtain ⟨_, _, found⟩ := Text.exists_recognise_of_mem_findAll member
  exact (recognise_front found).1

theorem Piece.of_isWordly {piece rest : Text} (stands : Piece piece rest) (wordly : Text.IsWordly piece) :
    2 ≤ piece.length ∧ Stops rest ∧ rest.head? ≠ some ')' := by
  cases stands with
  | single _ => cases wordly '(' (by simp)
  | @chain opening tail closing rest c opens word linked long closes =>
    rcases opens with rfl | rfl
    · cases closes with
      | parenthesis => cases wordly ')' (by simp)
      | nothing stops other =>
        have := List.length_pos_iff.mpr long
        exact ⟨by simp; omega, stops, other⟩
    · cases wordly '(' (by simp)

theorem Piece.boundary {piece rest : Text} (stands : Piece piece rest) : Text.Boundary piece rest := by
  cases stands with
  | @single c rest _ => exact Or.inl ⟨['(', c, ')'], '+', rfl, isWord_plus⟩
  | @chain opening tail closing rest c _ _ _ _ closes =>
    cases closes with
    | parenthesis => exact Or.inl ⟨opening ++ (c :: tail), ')', by simp, isWord_closing⟩
    | nothing stops _ => exact Or.inr stops.word

/-- A piece found that is a word is a whole run of the text. -/
theorem mem_runs_of_mem_findAll {text piece : Text} (member : piece ∈ findAll text)
    (wordly : Text.IsWordly piece) : piece ∈ text.runs ∧ 2 ≤ piece.length := by
  induction text using Text.search_induction recognise_front with
  | nil => cases member
  | missed c rest missed ih =>
    rw [findAll_cons missed] at member
    obtain ⟨later, long⟩ := ih member
    have boundary : Text.Boundary [c] rest := by
      cases word : isWord c with
      | true => exact Or.inr (stops_of_missed (Or.inl rfl) word missed).word
      | false => exact Or.inl ⟨[], c, rfl, word⟩
    exact ⟨Text.mem_runs_append boundary (ne_nil_of_mem_findAll member) later, long⟩
  | taken first rest _ found ih =>
    have stands := piece_of_recognise found
    rw [findAll_append stands, List.mem_cons] at member
    rcases member with rfl | later
    · obtain ⟨long, stops, _⟩ := stands.of_isWordly wordly
      refine ⟨?_, long⟩
      cases rest with
      | nil => simp [Text.runs_of_isWordly wordly]
      | cons c rest => simp [Text.runs_append_cons wordly (stops.word c rest rfl)]
    · obtain ⟨inside, long⟩ := ih later
      exact ⟨Text.mem_runs_append stands.boundary (ne_nil_of_mem_findAll later) inside, long⟩

/-- What the front of a text has to look like for a sum to be reduced there, or a parenthesis to
be taken off. -/
inductive Ready : Text → Prop where
  | sum {first last : Char} {rest : Text} : isWord first = true → isWord last = true →
      Ready (first :: '+' :: last :: rest)
  | single {c : Char} {rest : Text} : isWord c = true → Ready ('(' :: c :: ')' :: '+' :: rest)
  | opened {first second : Char} {rest : Text} : isWord first = true → isWord second = true →
      Ready ('(' :: first :: second :: rest)
  | closed {first second : Char} {rest : Text} : isWord first = true → isWord second = true →
      Ready (first :: second :: ')' :: rest)

theorem Ready.recognise {text : Text} (ready : Ready text) : recognise text ≠ none := by
  intro missed
  cases ready with
  | @sum first last rest one other =>
    have := (stops_of_missed (Or.inl rfl) one missed).plus last rest rfl
    simp [other] at this
  | @single c rest word =>
    have stands : Piece ['(', c, ')', '+'] rest := .single word
    have found := recognise_append stands
    simp [missed] at found
  | @opened first second rest one other =>
    have := (stops_of_missed (Or.inr rfl) one missed).word second rest rfl
    simp [other] at this
  | @closed first second rest one other =>
    have := (stops_of_missed (Or.inl rfl) one missed).word second _ rfl
    simp [other] at this

/-- A word that is over, with no parenthesis behind it, is not ready. -/
private theorem not_ready_of_word {word rest : Text} {c : Char} (wordly : Text.IsWordly (c :: word))
    (stops : Stops rest) (other : rest.head? ≠ some ')') : ¬ Ready (c :: (word ++ rest)) := by
  generalize same : c :: (word ++ rest) = text
  intro ready
  cases ready with
  | sum one last =>
    cases word with
    | nil => simp [stops.plus _ _ (List.cons.inj same).2] at last
    | cons d word =>
      have plus : d = '+' := (List.cons.inj (List.cons.inj same).2).1
      simpa [plus, isWord_plus] using wordly d (by simp)
  | single _ | opened _ _ =>
    have opening := wordly c (by simp)
    rw [(List.cons.inj same).1] at opening
    cases opening
  | closed one next =>
    cases word with
    | nil => simp [stops.word _ _ (List.cons.inj same).2] at next
    | cons d word =>
      have behind := (List.cons.inj (List.cons.inj same).2).2
      cases word with
      | nil => exact other (congrArg List.head? behind)
      | cons e word =>
        have closing := wordly e (by simp)
        rw [(List.cons.inj behind).1] at closing
        cases closing

private theorem not_ready_append {word rest : Text} (wordly : Text.IsWordly word) (stops : Stops rest)
    (other : rest.head? ≠ some ')') (inside : ∀ {place}, place <:+ rest → ¬ Ready place) {place : Text}
    (behind : place <:+ word ++ rest) : ¬ Ready place := by
  induction word with
  | nil => exact inside behind
  | cons c word ih =>
    rcases List.suffix_cons_iff.mp behind with rfl | later
    · exact not_ready_of_word wordly stops other
    · exact ih (fun d member => wordly d (by simp [member])) later

/-- If every piece found is a word, nothing stands ready anywhere. -/
theorem not_ready_of_isWordly {text : Text} (wordly : ∀ piece ∈ findAll text, Text.IsWordly piece)
    {place : Text} (behind : place <:+ text) : ¬ Ready place := by
  induction text using Text.search_induction recognise_front generalizing place with
  | nil =>
    rw [List.suffix_nil.mp behind]
    intro ready
    cases ready
  | missed c rest missed ih =>
    rw [findAll_cons missed] at wordly
    rcases List.suffix_cons_iff.mp behind with rfl | later
    · exact fun ready => ready.recognise missed
    · exact ih wordly later
  | taken piece rest _ found ih =>
    have stands := piece_of_recognise found
    rw [findAll_append stands] at wordly
    have word := wordly piece (by simp)
    obtain ⟨_, stops, other⟩ := stands.of_isWordly word
    exact not_ready_append word stops other (ih fun other member => wordly other (by simp [member])) behind

theorem two_le_length_of_mem_findAll {text piece : Text} (member : piece ∈ findAll text) :
    2 ≤ piece.length := by
  obtain ⟨_, stands⟩ := exists_piece_of_mem_findAll member
  cases stands with
  | single _ => simp
  | chain _ _ _ long _ =>
    have := List.length_pos_iff.mpr long
    simp
    omega

end SumGroup
end SumStar
