import SumStar.Proofs.SearchSpans
import SumStar.Proofs.SumAlternatives
import SumStar.Proofs.SumShape

/-! Where the sum groups of a text stand. They are the pieces of one pass from left to right that takes the
longest chain where one begins, or else a single word character between parentheses in front of `+`,
and passes over one character where neither begins. -/

namespace SumStar.SumGroup

open Text

variable {text first second tail behind piece rest : Text} {c : Char}

/-- A word character and the links behind it. -/
inductive IsChain : Text → Prop where
  | intro {c : Char} {tail : Text} : isWord c = true → Linked tail → IsChain (c :: tail)

/-- A chain of at least two word characters, and no longer one in its place. -/
structure IsLongest (taken behind : Text) : Prop where
  chain : IsChain taken
  several : 2 ≤ taken.countP isWord
  longest : ∀ other, IsChain other → other <+: taken ++ behind → other.length ≤ taken.length

/-- The longest chain, with an opening parenthesis in front of it and a closing one directly behind where
they stand there. -/
inductive ChainPiece : Text → Text → Prop where
  | intro {opening chain closing rest : Text} : opening = [] ∨ opening = ['('] → IsLongest chain (closing ++ rest) →
      closing = [')'] ∨ closing = [] ∧ rest.head? ≠ some ')' → ChainPiece (opening ++ (chain ++ closing)) rest

/-- Whether the pass takes a chain from the front of the text. -/
def BeginsChain (text : Text) : Prop :=
  ∃ piece rest, text = piece ++ rest ∧ ChainPiece piece rest

/-- Whether a single word character stands at the front between parentheses, with a `+` behind them. -/
def BeginsSingle (text : Text) : Prop :=
  ∃ c rest, isWord c = true ∧ text = ['(', c, ')', '+'] ++ rest

/-- The spans that one pass takes from a text that begins at the given place. -/
inductive Scanned : Nat → Text → List Span → Prop where
  | done {place : Nat} : Scanned place [] []
  | chain {place : Nat} {piece rest : Text} {spans : List Span} : ChainPiece piece rest →
      Scanned (place + piece.length) rest spans →
      Scanned place (piece ++ rest) (⟨place, place + piece.length⟩ :: spans)
  | single {place : Nat} {c : Char} {rest : Text} {spans : List Span} : isWord c = true →
      ¬ BeginsChain (['(', c, ')', '+'] ++ rest) → Scanned (place + 4) rest spans →
      Scanned place (['(', c, ')', '+'] ++ rest) (⟨place, place + 4⟩ :: spans)
  | passed {place : Nat} {c : Char} {rest : Text} {spans : List Span} : ¬ BeginsChain (c :: rest) →
      ¬ BeginsSingle (c :: rest) → Scanned (place + 1) rest spans → Scanned place (c :: rest) spans

theorem Linked.append (here : Linked first) (there : Linked second) : Linked (first ++ second) := by
  induction here with
  | nil => exact there
  | word own _ ih => exact .word own ih
  | plus own _ ih => exact .plus own ih

theorem Linked.prefix_chainTail (linked : Linked tail) (front : tail <+: text) : tail <+: chainTail text := by
  induction linked generalizing text with
  | nil => exact List.nil_prefix
  | word own _ ih =>
    obtain ⟨behind, rfl⟩ := front
    rw [List.cons_append, chainTail_word own]
    exact List.cons_prefix_cons.mpr ⟨rfl, ih (List.prefix_append _ _)⟩
  | plus own _ ih =>
    obtain ⟨behind, rfl⟩ := front
    rw [List.cons_append, List.cons_append, chainTail_plus own]
    exact List.cons_prefix_cons.mpr ⟨rfl, List.cons_prefix_cons.mpr ⟨rfl, ih (List.prefix_append _ _)⟩⟩

theorem Linked.countP_pos (linked : Linked tail) (long : tail ≠ []) : 0 < tail.countP isWord := by
  cases linked with
  | nil => exact False.elim (long rfl)
  | word own _ => exact List.countP_pos_iff.mpr ⟨_, by simp, own⟩
  | plus own _ => exact List.countP_pos_iff.mpr ⟨_, by simp, own⟩

/-- A chain is the longest one where it cannot go on. -/
theorem isLongest_iff (own : isWord c = true) (linked : Linked tail) :
    IsLongest (c :: tail) behind ↔ tail ≠ [] ∧ Stops behind := by
  constructor
  · intro ⟨_, several, longest⟩
    have ended : ∀ further rest, behind = further ++ rest → Linked further → further = [] := by
      rintro further rest rfl more
      have short := longest (c :: (tail ++ further)) (.intro own (linked.append more)) (by simp)
      simp only [List.length_cons, List.length_append] at short
      exact List.length_eq_zero_iff.mp (by omega)
    refine ⟨?_, fun d rest same => ?_, fun d rest same => ?_⟩
    · rintro rfl
      simp [own] at several
    · by_contra letter
      cases ended [d] rest same (.word (by simpa using letter) .nil)
    · by_contra letter
      cases ended ['+', d] rest same (.plus (by simpa using letter) .nil)
  · intro ⟨long, stops⟩
    refine ⟨.intro own linked, ?_, ?_⟩
    · rw [List.countP_cons_of_pos own]
      have := linked.countP_pos long
      omega
    · rintro _ ⟨_, others⟩ front
      rw [List.cons_append] at front
      obtain ⟨rfl, inside⟩ := List.cons_prefix_cons.mp front
      have shorter := (others.prefix_chainTail inside).length_le
      rw [chainTail_append linked stops] at shorter
      exact Nat.succ_le_succ shorter

/-- The pieces of the search are those of the pass. -/
theorem piece_iff :
    Piece piece rest ↔ ChainPiece piece rest ∨ ∃ c, isWord c = true ∧ piece = ['(', c, ')', '+'] := by
  constructor
  · intro stands
    cases stands with
    | single own => exact Or.inr ⟨_, own, rfl⟩
    | chain opens own linked long closes =>
      have longest := (isLongest_iff own linked).mpr ⟨long, closes.stops⟩
      cases closes with
      | parenthesis => exact Or.inl (.intro opens longest (Or.inl rfl))
      | nothing _ other => exact Or.inl (.intro opens longest (Or.inr ⟨rfl, other⟩))
  · rintro (⟨opens, longest, closed⟩ | ⟨c, own, rfl⟩)
    · obtain ⟨own, linked⟩ := longest.chain
      obtain ⟨long, stops⟩ := (isLongest_iff own linked).mp longest
      rcases closed with rfl | ⟨rfl, other⟩
      · exact .chain opens own linked long .parenthesis
      · exact .chain opens own linked long (.nothing stops other)
    · exact .single own

theorem ChainPiece.isPiece (stands : ChainPiece piece rest) : Piece piece rest :=
  piece_iff.mpr (Or.inl stands)

/-- The recogniser finds nothing where the pass takes nothing. -/
theorem recognise_eq_none_iff : recognise text = none ↔ ¬ BeginsChain text ∧ ¬ BeginsSingle text := by
  constructor
  · intro missed
    have absent : ∀ {piece rest}, text = piece ++ rest → ¬ Piece piece rest := by
      rintro piece rest rfl stands
      rw [recognise_append stands] at missed
      cases missed
    exact ⟨fun ⟨_, _, same, stands⟩ => absent same stands.isPiece, fun ⟨_, _, own, same⟩ => absent same (.single own)⟩
  · intro ⟨chain, single⟩
    cases found : recognise text with
    | none => rfl
    | some piece =>
      obtain ⟨rest, same, stands⟩ := exists_of_recognise found
      rcases piece_iff.mp stands with long | ⟨c, own, rfl⟩
      · exact False.elim (chain ⟨piece, rest, same, long⟩)
      · exact False.elim (single ⟨c, rest, own, same⟩)

theorem Piece.shift_findSpans (stands : Piece piece rest) (place : Nat) :
    (findSpans recognise (piece ++ rest)).map (·.shift place) =
      ⟨place, place + piece.length⟩ :: (findSpans recognise rest).map (·.shift (place + piece.length)) :=
  shift_findSpans_append stands.ne_nil (recognise_append stands) place

/-- The pass takes the spans that the search finds, and no others. -/
theorem scanned_iff {place : Nat} {spans : List Span} :
    Scanned place text spans ↔ spans = (findSpans recognise text).map (·.shift place) := by
  constructor
  · intro scanned
    induction scanned with
    | done => rfl
    | chain stands _ ih => rw [stands.isPiece.shift_findSpans, ih]
    | single own _ _ ih =>
      rw [(Piece.single own).shift_findSpans, ih]
      rfl
    | passed chain single _ ih => rw [shift_findSpans_cons (recognise_eq_none_iff.mpr ⟨chain, single⟩), ih]
  · rintro rfl
    induction text using search_induction recognise_front generalizing place with
    | nil => exact .done
    | missed c rest missed ih =>
      obtain ⟨chain, single⟩ := recognise_eq_none_iff.mp missed
      rw [shift_findSpans_cons missed]
      exact .passed chain single ih
    | taken piece rest _ found ih =>
      have stands := piece_of_recognise found
      rw [stands.shift_findSpans]
      by_cases chain : ChainPiece piece rest
      · exact .chain chain ih
      · obtain ⟨c, own, rfl⟩ := (piece_iff.mp stands).resolve_left chain
        refine .single own ?_ ih
        rintro ⟨other, behind, same, long⟩
        have taken := recognise_append long.isPiece
        rw [← same, found] at taken
        obtain rfl := Option.some.inj taken
        exact chain (List.append_cancel_left same ▸ long)

/-- A piece ends in a word that is over, or in a parenthesis, or in the `+` behind one. -/
theorem Piece.exists_end (stands : Piece piece rest) :
    ∃ front last, piece = front ++ last ∧
      ((∃ c, last = [c] ∧ isWord c = true ∧ Stops rest) ∨ last = [')'] ∨ last = [')', '+']) := by
  cases stands with
  | @single c => exact ⟨['(', c], [')', '+'], rfl, Or.inr (Or.inr rfl)⟩
  | @chain opening tail closing rest c opens own linked _ closes =>
    cases closes with
    | parenthesis => exact ⟨opening ++ (c :: tail), [')'], by simp, Or.inr (Or.inl rfl)⟩
    | nothing stops _ =>
      obtain ⟨front, last, same⟩ := (List.eq_nil_or_concat' (c :: tail)).resolve_left (List.cons_ne_nil c tail)
      have ends := linked.getLast? own
      rw [same, List.getLast?_concat] at ends
      exact ⟨opening ++ front, [last], by simp [same], Or.inl ⟨last, rfl, ends, stops⟩⟩

/-- A sum of two word characters that begins within a piece stands in it. -/
theorem Piece.reaches_sum {before after : Text} {one other : Char} (stands : Piece piece rest) (first : isWord one = true)
    (last : isWord other = true) (same : piece ++ rest = before ++ one :: '+' :: other :: after)
    (early : before.length < piece.length) : before.length + 3 ≤ piece.length := by
  obtain ⟨inner, rfl⟩ : before <+: piece :=
    List.prefix_of_prefix_length_le (same ▸ List.prefix_append before _) (List.prefix_append piece rest) early.le
  rw [List.append_assoc] at same
  have inside := List.append_cancel_left same
  obtain ⟨front, ending, split, ends⟩ := stands.exists_end
  have final := congrArg List.getLast? split
  match inner, inside with
  | [], _ => simp at early
  | [letter], inside =>
    obtain ⟨rfl, rfl⟩ := List.cons.inj inside
    rcases ends with ⟨_, _, _, stops⟩ | rfl | rfl
    · simp [stops.plus other after rfl] at last
    · exact False.elim (ne_of_isWord first isWord_closing (by simpa using final))
    · exact False.elim (ne_of_isWord first isWord_plus (by simpa using final))
  | [letter, sign], inside =>
    obtain ⟨rfl, behind⟩ := List.cons.inj inside
    obtain ⟨rfl, _⟩ := List.cons.inj behind
    rcases ends with ⟨c, rfl, own, _⟩ | rfl | rfl
    · exact False.elim (ne_of_isWord own isWord_plus (by simpa using final.symm))
    · simp at final
    · have closing := (List.cons.inj (List.append_inj' split rfl).2).1
      exact False.elim (ne_of_isWord first isWord_closing closing)
  | _ :: _ :: _ :: _, _ => simp

/-- A sum of two word characters stands in one of the pieces found. -/
theorem exists_span_of_sum {before after : Text} {one other : Char} (first : isWord one = true)
    (last : isWord other = true) (same : text = before ++ one :: '+' :: other :: after) :
    ∃ span ∈ findSpans recognise text, span.start ≤ before.length ∧ before.length + 3 ≤ span.stop := by
  induction text using search_induction recognise_front generalizing before with
  | nil => simp at same
  | missed c rest missed ih =>
    cases before with
    | nil =>
      obtain ⟨rfl, rfl⟩ := List.cons.inj same
      have ended := (stops_of_missed (Or.inl rfl) first missed).plus other after rfl
      rw [last] at ended
      cases ended
    | cons d before =>
      obtain ⟨span, found, starts, ends⟩ := ih (List.cons.inj same).2
      rw [findSpans_cons missed]
      refine ⟨span.shift 1, List.mem_map_of_mem found, ?_⟩
      simp only [Span.shift, List.length_cons]
      omega
  | taken piece rest present found ih =>
    rw [findSpans_append present found]
    by_cases early : before.length < piece.length
    · have stands := piece_of_recognise found
      exact ⟨_, List.mem_cons_self, Nat.zero_le _, stands.reaches_sum first last same early⟩
    · obtain ⟨later, rfl⟩ : piece <+: before :=
        List.prefix_of_prefix_length_le (List.prefix_append piece rest) (same ▸ List.prefix_append before _) (by omega)
      rw [List.append_assoc] at same
      obtain ⟨span, inside, starts, ends⟩ := ih (List.append_cancel_left same)
      refine ⟨span.shift piece.length, List.mem_cons_of_mem _ (List.mem_map_of_mem inside), ?_⟩
      simp only [Span.shift, List.length_append]
      omega

/-- The leftmost matches of the shape by its preferred way are the spans of one pass, and there are no others;
what stands in them are the groups that the sum phase finds. Where the first side of the shape leaves
nothing, the second one has a single word character to take between its parentheses, and a `+` between
two word characters stands in one of the spans together with them. -/
theorem spans_exact (text : Text) :
    let found := findSpans recognise text
    (∀ spans, Leftmost Shape.sum.take? 0 text spans ↔ spans = found) ∧
      (∀ spans, Scanned 0 text spans ↔ spans = found) ∧
      found.map (fun span => text.slice span.start span.stop) = findAll text ∧
      (∀ first second, Shape.sum = .choice first second → ∀ place, place <:+ text → first.rests place = [] →
        ∀ rest ∈ second.rests place, ∃ c, isWord c = true ∧ place = ['(', c, ')', '+'] ++ rest) ∧
      ∀ before one other after, isWord one = true → isWord other = true →
        text = before ++ [one, '+', other] ++ after →
        ∃ span ∈ found, span.start ≤ before.length ∧ before.length + 3 ≤ span.stop := by
  intro found
  have preferred : Shape.sum.take? = recognise := funext take?_sum
  rw [preferred]
  refine ⟨fun spans => ?_, fun spans => ?_, slice_findSpans recognise_front text, ?_, ?_⟩
  · rw [leftmost_iff recognise_front, shift_zero]
  · rw [scanned_iff, shift_zero]
  · intro first second sides place _ refused rest member
    obtain ⟨rfl, rfl⟩ := Shape.choice.inj (sum_eq.symm.trans sides)
    exact exists_single_of_mem_enclosed refused member
  · intro before one other after first last same
    rw [List.append_assoc] at same
    exact exists_span_of_sum first last same

/-- A chain within parentheses and a single character within its own, where no chain is to be had. -/
theorem spans_exact_nested :
    let text := "((a+b)+(c)+d".toList
    Leftmost Shape.sum.take? 0 text [⟨1, 6⟩, ⟨7, 11⟩] ∧ Scanned 0 text [⟨1, 6⟩, ⟨7, 11⟩] ∧
      (Shape.sum = .choice chained enclosed ∧ "(c)+d".toList <:+ text ∧ chained.rests "(c)+d".toList = [] ∧
        "d".toList ∈ enclosed.rests "(c)+d".toList ∧
        ∃ c, isWord c = true ∧ "(c)+d".toList = ['(', c, ')', '+'] ++ "d".toList) ∧
      text = "((".toList ++ ['a', '+', 'b'] ++ ")+(c)+d".toList ∧
      ∃ span ∈ findSpans recognise text, span.start ≤ 2 ∧ 5 ≤ span.stop := by
  intro text
  obtain ⟨matched, passed, _, single, covered⟩ := spans_exact text
  have behind : "(c)+d".toList <:+ text := ⟨"((a+b)+".toList, by decide⟩
  have refused : chained.rests "(c)+d".toList = [] := by decide
  have taken : "d".toList ∈ enclosed.rests "(c)+d".toList := by decide
  have split : text = "((".toList ++ ['a', '+', 'b'] ++ ")+(c)+d".toList := by decide
  exact ⟨(matched _).mpr (by decide), (passed _).mpr (by decide),
    ⟨sum_eq, behind, refused, taken, single chained enclosed sum_eq _ behind refused _ taken⟩, split,
    covered _ 'a' 'b' _ (by decide) (by decide) split⟩

end SumStar.SumGroup
