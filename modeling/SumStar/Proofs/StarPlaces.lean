import SumStar.Proofs.SearchSpans
import SumStar.Proofs.StarGroups

/-! Where the star groups of a text end. A star is found if it stands directly behind a word character, or
behind a parenthesis that closes directly behind one; the search finds one group for every such star
and none for another one. -/

namespace SumStar

namespace Text

/-- The places of the stars that stand behind a text of the given kind. -/
def starPlaces (behind : Text → Bool) (text : Text) : List Nat :=
  (List.range text.length).filter fun place => text[place]? == some '*' && behind (text.take place)

variable {behind other : Text → Bool} {c : Char} {text : Text}

theorem starPlaces_cons (behind : Text → Bool) (c : Char) (rest : Text) :
    starPlaces behind (c :: rest) =
      (if c = '*' ∧ behind [] = true then [0] else []) ++
        (starPlaces (fun before => behind (c :: before)) rest).map (· + 1) := by
  rw [starPlaces, List.length_cons, List.range_succ_eq_map, List.filter_cons, List.filter_map]
  by_cases here : c = '*' ∧ behind [] = true <;> simp [starPlaces, here, Function.comp_def]

theorem starPlaces_append (behind : Text → Bool) (first rest : Text) :
    starPlaces behind (first ++ rest) =
      starPlaces behind first ++
        (starPlaces (fun before => behind (first ++ before)) rest).map (· + first.length) := by
  induction first generalizing behind with
  | nil => simp [starPlaces]
  | cons c first ih =>
    rw [List.cons_append, starPlaces_cons, ih, starPlaces_cons, List.map_append, List.append_assoc, List.map_map]
    simp [Function.comp_def, Nat.add_assoc]

theorem starPlaces_congr (same : ∀ before rest, text = before ++ '*' :: rest → behind before = other before) :
    starPlaces behind text = starPlaces other text := by
  apply List.filter_congr
  intro place inside
  by_cases star : text[place]? = some '*'
  · obtain ⟨below, here⟩ := List.getElem?_eq_some_iff.mp star
    have split : text = text.take place ++ '*' :: text.drop (place + 1) := by
      rw [← here, List.getElem_cons_drop, List.take_append_drop]
    rw [same _ _ split]
  · have missed : (text[place]? == some '*') = false := beq_eq_false_iff_ne.mpr star
    rw [missed, Bool.false_and, Bool.false_and]

theorem starPlaces_of_notMem (starless : '*' ∉ text) : starPlaces behind text = [] := by
  apply List.filter_eq_nil_iff.mpr
  intro place _ found
  obtain ⟨star, _⟩ := Bool.and_eq_true_iff.mp found
  exact starless (List.mem_of_getElem? (beq_iff_eq.mp star))

theorem starPlaces_concat (starless : '*' ∉ text) :
    starPlaces behind (text ++ ['*']) = if behind text = true then [text.length] else [] := by
  rw [starPlaces_append, starPlaces_of_notMem starless, List.nil_append, starPlaces_cons]
  by_cases taken : behind text = true <;> simp [starPlaces, taken]

end Text

namespace StarGroup

open Text

variable {text before rest piece word : Text} {c : Char}

/-- Whether a star behind the text would end a group. -/
def takesStar (before : Text) : Bool :=
  match before.reverse with
  | ')' :: c :: _ => isWord c
  | c :: _ => isWord c
  | [] => false

theorem takesStar_concat (first : Text) (word : isWord c = true) : takesStar (first ++ [c]) = true := by
  have other : c ≠ ')' := ne_of_isWord word isWord_closing
  simp [takesStar, word, other]

theorem takesStar_closed (first : Text) (word : isWord c = true) : takesStar (first ++ [c, ')']) = true := by
  simp [takesStar, word]

/-- What stands in front of a text matters only if the text is empty or a single parenthesis. -/
theorem takesStar_cons (c : Char) (before : Text) :
    takesStar (c :: before) = (takesStar before || isWord c && (before == [] || before == [')'])) := by
  rcases List.eq_nil_or_concat' before with rfl | ⟨front, last, rfl⟩
  · cases word : isWord c with
    | true => exact takesStar_concat [] word
    | false => simp [takesStar, word]
  · rcases List.eq_nil_or_concat' front with rfl | ⟨front, next, rfl⟩
    · by_cases closing : last = ')'
      · simp [takesStar, closing, isWord_closing]
      · simp [takesStar, closing]
    · have several : (front ++ [next] ++ [last] == [] || front ++ [next] ++ [last] == [')']) = false := by
        simp [List.append_eq_cons_iff]
      rw [several, Bool.and_false, Bool.or_false]
      by_cases closing : last = ')' <;> simp [takesStar, closing]

theorem takesStar_star (first behind : Text) : takesStar (first ++ '*' :: behind) = takesStar behind := by
  have alone : takesStar ('*' :: behind) = takesStar behind := by
    rw [takesStar_cons, isWord_star, Bool.false_and, Bool.or_false]
  induction first with
  | nil => exact alone
  | cons c first ih =>
    have filled : (first ++ '*' :: behind == [] || first ++ '*' :: behind == [')']) = false := by
      cases first <;> simp
    rw [List.cons_append, takesStar_cons, filled, Bool.and_false, Bool.or_false, ih]

theorem Piece.exists_front {piece : Text} (stands : Piece piece word) :
    ∃ front, piece = front ++ ['*'] ∧ '*' ∉ front ∧ ∀ first, takesStar (first ++ front) = true := by
  cases stands with
  | @run opening word closing opens present own closes =>
    have starless : '*' ∉ word := own.notMem isWord_star
    obtain ⟨letters, c, rfl⟩ := (List.eq_nil_or_concat' word).resolve_left present
    have letter : isWord c = true := own c (by simp)
    refine ⟨opening ++ (letters ++ [c]) ++ closing, rfl, ?_, fun first => ?_⟩
    · rcases opens with rfl | rfl <;> rcases closes with rfl | rfl <;> simpa using starless
    · rcases closes with rfl | rfl
      · simpa using takesStar_concat (first ++ opening ++ letters) letter
      · simpa using takesStar_closed (first ++ opening ++ letters) letter

/-- A character that begins no group is not what a star behind it stands at. -/
theorem takesStar_of_missed {rest : Text} (missed : recognise (c :: (before ++ '*' :: rest)) = none) :
    takesStar (c :: before) = takesStar before := by
  have apart : (isWord c && (before == [] || before == [')'])) = false := by
    cases word : isWord c with
    | false => rfl
    | true =>
      have own : IsWordly [c] := fun d member => List.mem_singleton.mp member ▸ word
      have found := recognise_append own (List.cons_ne_nil c []) (before ++ '*' :: rest)
      rw [List.singleton_append, missed] at found
      by_cases short : before = [] ∨ before = [')']
      · rcases short with rfl | rfl <;> simp [tail?] at found
      · simpa using short
  rw [takesStar_cons, apart, Bool.or_false]

theorem stop_shift (spans : List Span) (count : Nat) :
    (spans.map (·.shift count)).map Span.stop = (spans.map Span.stop).map (· + count) := by
  rw [List.map_map, List.map_map]
  rfl

/-- The search finds a group for each star that stands behind a word, with or without a parenthesis, and
no other one. -/
theorem stops_findSpans (text : Text) :
    (findSpans recognise text).map Span.stop = (starPlaces takesStar text).map (· + 1) := by
  induction text using search_induction recognise_front with
  | nil => rfl
  | missed c rest missed ih =>
    have same : starPlaces (fun before => takesStar (c :: before)) rest = starPlaces takesStar rest :=
      starPlaces_congr fun before behind split => takesStar_of_missed (split ▸ missed)
    have first : ¬ (c = '*' ∧ takesStar [] = true) := fun ⟨_, taken⟩ => absurd taken (by decide)
    rw [findSpans_cons missed, stop_shift, ih, starPlaces_cons, if_neg first, List.nil_append, same]
  | taken piece rest present found ih =>
    obtain ⟨word, behind, _, stands⟩ := exists_of_recognise found
    obtain ⟨front, rfl, starless, takes⟩ := stands.exists_front
    have own : starPlaces takesStar (front ++ ['*']) = [front.length] := by
      rw [starPlaces_concat starless]
      exact if_pos (takes [])
    have same : starPlaces (fun before => takesStar (front ++ ['*'] ++ before)) rest = starPlaces takesStar rest :=
      starPlaces_congr fun before behind split => by
        rw [List.append_assoc, List.singleton_append, takesStar_star]
    rw [findSpans_append present found, List.map_cons, stop_shift, ih, starPlaces_append, own, same, List.map_append,
      List.map_map, List.map_map, List.length_append]
    exact congrArg _ (List.map_congr_left fun place _ => Nat.add_right_comm place 1 _)

end StarGroup

end SumStar
