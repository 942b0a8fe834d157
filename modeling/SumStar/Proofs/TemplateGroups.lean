import SumStar.Proofs.SumTexts
import SumStar.Proofs.SymbolTemplates

/-! The sum groups of a template. Whether a piece is found depends on the names only in so far as a
name by itself is a chain if it has a second character. So the search finds the same pieces of a
template in two runs that give single letters to the same symbols. -/

namespace SumStar

open Text SumGroup

namespace Template

variable {start count : Nat} {glyph : Glyph} {template : Template}

/-- Nothing goes on with a character outside words, a `+` in front of a word apart. -/
private theorem stops_spell {c : Char} (gap : isWord c = false)
    (made : ∀ next behind, c = '+' → template = next :: behind → next.isWord = false) (start : Nat) :
    Stops (c :: spell start template) := by
  constructor
  · intro d rest same
    rwa [← (List.cons.inj same).1]
  · intro d rest same
    obtain ⟨plus, behind⟩ := List.cons.inj same
    cases template with
    | nil => cases behind
    | cons next template =>
      obtain ⟨e, rfl, other⟩ := Glyph.exists_of_gap (made next template plus rfl)
      rw [spell_cons] at behind
      rw [← (List.cons.inj behind).1]
      exact other

/-- A chain goes on as far as the template says. -/
theorem exists_tail (template : Template) :
    ∃ tail rest : Template, template = tail ++ rest ∧
      ∀ start, Linked (spell start tail) ∧ Stops (spell start rest) := by
  induction size : template.length using Nat.strongRecOn generalizing template with
  | ind length ih =>
    cases template with
    | nil => exact ⟨[], [], rfl, fun _ => ⟨.nil, stops_nil⟩⟩
    | cons glyph behind =>
      rw [List.length_cons] at size
      cases word : glyph.isWord with
      | true =>
        obtain ⟨tail, rest, rfl, chain⟩ := ih _ (by omega) behind rfl
        refine ⟨glyph :: tail, rest, rfl, fun start => ⟨?_, (chain start).2⟩⟩
        rw [spell_cons]
        exact linked_append (isWordly_spell_glyph start word) (chain start).1
      | false =>
        obtain ⟨c, rfl, gap⟩ := Glyph.exists_of_gap word
        by_cases further : ∃ next rest, c = '+' ∧ behind = next :: rest ∧ next.isWord = true
        · obtain ⟨next, behind, rfl, rfl, letter⟩ := further
          rw [List.length_cons] at size
          obtain ⟨tail, rest, rfl, chain⟩ := ih _ (by omega) behind rfl
          refine ⟨.plain '+' :: next :: tail, rest, rfl, fun start => ⟨?_, (chain start).2⟩⟩
          have own := isWordly_spell_glyph start letter
          obtain ⟨d, suffix, spelled⟩ := List.exists_cons_of_ne_nil (spell_glyph_ne_nil start next)
          rw [spelled] at own
          rw [spell_cons, spell_cons, spelled]
          exact .plus (own d (by simp)) (linked_append (fun e member => own e (by simp [member])) (chain start).1)
        · refine ⟨[], .plain c :: behind, rfl, fun start => ⟨.nil, ?_⟩⟩
          rw [spell_cons]
          apply stops_spell gap
          intro next rest plus same
          cases letter : next.isWord with
          | false => rfl
          | true => exact False.elim (further ⟨next, rest, plus, same, letter⟩)

theorem exists_closing (rest : Template) :
    ∃ closing behind : Template, rest = closing ++ behind ∧
      ∀ start, Stops (spell start rest) → Closes (spell start closing) (spell start behind) := by
  by_cases parenthesis : ∃ behind, rest = .plain ')' :: behind
  · obtain ⟨behind, rfl⟩ := parenthesis
    exact ⟨[.plain ')'], behind, rfl, fun _ _ => .parenthesis⟩
  · refine ⟨[], rest, rfl, fun start stops => .nothing stops ?_⟩
    exact fun front => parenthesis (exists_of_head isWord_closing front)

/-- A chain that begins with a glyph is a piece, unless the glyph is a single character that nothing
goes on behind. -/
theorem exists_piece {opening : Template} (opens : opening = [] ∨ opening = [.plain '(']) (word : glyph.isWord = true)
    (behind : Template) :
    ∃ (piece rest : Template) (alone : Prop), opening ++ glyph :: behind = piece ++ rest ∧ piece ≠ [] ∧
      ∀ start, (alone → Stops (spell start behind)) ∧
        (¬ (alone ∧ (glyph.spell start).length = 1) → Piece (spell start piece) (spell start rest)) := by
  obtain ⟨tail, rest, rfl, chain⟩ := exists_tail behind
  obtain ⟨closing, rest, rfl, closes⟩ := exists_closing rest
  refine ⟨opening ++ (glyph :: tail ++ closing), rest, tail = [], by simp, by simp, ?_⟩
  intro start
  obtain ⟨linked, stops⟩ := chain start
  constructor
  · rintro rfl
    exact stops
  · intro long
    have own := isWordly_spell_glyph start word
    obtain ⟨c, suffix, spelled⟩ := List.exists_cons_of_ne_nil (spell_glyph_ne_nil start glyph)
    rw [spelled] at own long
    have filled : suffix ++ spell start tail ≠ [] := by
      intro none
      obtain ⟨rfl, empty⟩ := List.append_eq_nil_iff.mp none
      exact long ⟨spell_eq_nil_iff.mp empty, rfl⟩
    have front : spell start opening = [] ∨ spell start opening = ['('] := by
      rcases opens with rfl | rfl
      · exact Or.inl rfl
      · exact Or.inr rfl
    have stands := Piece.chain front (own c (by simp))
      (linked_append (fun d member => own d (by simp [member])) linked) filled (closes start stops)
    simpa [spelled] using stands

section Alone

variable {behind : Template} (word : glyph.isWord = true) (single : (glyph.spell start).length = 1)
include word single

private theorem exists_of_single : ∃ c, glyph.spell start = [c] ∧ isWord c = true := by
  obtain ⟨c, spelled⟩ := List.length_eq_one_iff.mp single
  have own := isWordly_spell_glyph start word
  rw [spelled] at own
  exact ⟨c, spelled, own c (by simp)⟩

theorem recognise_alone (stops : Stops (spell start behind)) : recognise (spell start (glyph :: behind)) = none := by
  obtain ⟨c, spelled, letter⟩ := exists_of_single word single
  rw [spell_cons, spelled]
  exact recognise_of_stops (ne_of_isWord letter isWord_opening) stops

theorem recognise_alone_closed (rest : Template) :
    recognise (spell start (.plain '(' :: glyph :: .plain ')' :: .plain '+' :: rest)) =
      some (spell start [.plain '(', glyph, .plain ')', .plain '+']) := by
  obtain ⟨c, spelled, letter⟩ := exists_of_single word single
  have stands : Piece ['(', c, ')', '+'] (spell start rest) := .single letter
  have found := recognise_append stands
  simpa [spelled] using found

theorem recognise_alone_opened (stops : Stops (spell start behind))
    (apart : ∀ rest, behind ≠ .plain ')' :: .plain '+' :: rest) :
    recognise (spell start (.plain '(' :: glyph :: behind)) = none := by
  obtain ⟨c, spelled, letter⟩ := exists_of_single word single
  rw [spell_cons, spell_cons, spelled]
  apply recognise_opened c stops
  intro rest same
  obtain ⟨closed, rfl⟩ := exists_of_head isWord_closing (congrArg List.head? same)
  obtain ⟨others, rfl⟩ := exists_of_head isWord_plus (congrArg List.head? (List.cons.inj same).2)
  exact apart others rfl

end Alone

/-- A name that begins no piece is a single character, so the search passes over it as a whole. -/
theorem findAll_spell_cons {rest : Template} (missed : recognise (spell start (glyph :: rest)) = none) :
    findAll (spell start (glyph :: rest)) = findAll (spell start rest) := by
  rw [spell_cons] at missed ⊢
  cases glyph with
  | plain c => exact findAll_cons missed
  | symbol turn =>
    have own : IsWordly (Glyph.spell start (.symbol turn)) := isWordly_spell_glyph start rfl
    obtain ⟨c, suffix, spelled⟩ := List.exists_cons_of_ne_nil (spell_glyph_ne_nil start (.symbol turn))
    rw [spelled, List.cons_append] at missed ⊢
    rw [spelled] at own
    have stops : Stops (suffix ++ spell start rest) := stops_of_missed (Or.inl rfl) (own c (by simp)) missed
    cases suffix with
    | nil => exact findAll_cons missed
    | cons d suffix =>
      have letter := own d (by simp)
      rw [stops.word d _ rfl] at letter
      cases letter

theorem withoutParentheses_spell (start : Nat) (template : Template) :
    withoutParentheses (spell start template) =
      spell start (template.filter fun glyph => glyph ≠ .plain '(' ∧ glyph ≠ .plain ')') := by
  induction template with
  | nil => rfl
  | cons glyph template ih =>
    rw [spell_cons, withoutParentheses_append, ih]
    cases glyph with
    | symbol turn =>
      have own : IsWordly (Glyph.spell start (.symbol turn)) := isWordly_spell_glyph start rfl
      rw [own.withoutParentheses, List.filter_cons_of_pos (by simp), spell_cons]
    | plain c =>
      by_cases parenthesis : c = '(' ∨ c = ')'
      · rcases parenthesis with rfl | rfl
        · rfl
        · rfl
      · obtain ⟨opening, closing⟩ := not_or.mp parenthesis
        have kept : isParenthesis c = false := by simp [isParenthesis, opening, closing]
        rw [List.filter_cons_of_pos (by simp [opening, closing]), spell_cons]
        simp [withoutParentheses, kept]

theorem exists_splitOn (template : Template) :
    ∃ parts : List Template, (∀ part ∈ parts, part ⊆ template) ∧
      ∀ start, (spell start template).splitOn '+' = parts.map (spell start) := by
  induction size : template.length using Nat.strongRecOn generalizing template with
  | ind length ih =>
    by_cases plus : .plain '+' ∈ template
    · obtain ⟨front, rest, rfl, none⟩ := List.eq_append_cons_of_mem plus
      rw [List.length_append, List.length_cons] at size
      obtain ⟨parts, inside, split⟩ := ih _ (by omega) rest rfl
      refine ⟨front :: parts, ?_, ?_⟩
      · intro part member
        rcases List.mem_cons.mp member with rfl | later
        · exact List.subset_append_left _ _
        · exact List.Subset.trans (inside part later) (List.subset_append_of_subset_right _ (List.subset_cons_self _ _))
      · intro start
        have free : ∀ c ∈ spell start front, (c == '+') = false := by
          intro c member
          apply beq_eq_false_iff_ne.mpr
          rintro rfl
          exact none ((mem_spell_iff isWord_plus).mp member)
        have first := List.splitOnP_append_cons_of_forall_mem free '+' rfl (spell start rest)
        rw [spell_append, spell_cons, List.map_cons, ← split start]
        exact first
    · refine ⟨[template], by simp, fun start => ?_⟩
      rw [List.map_singleton]
      exact List.splitOn_eq_singleton fun member => plus ((mem_spell_iff isWord_plus).mp member)

/-- The summands of a group are written from the template of the group. -/
theorem exists_alternatives (template : Template) :
    ∃ bodies : List Template, (∀ body ∈ bodies, body ⊆ template) ∧
      ∀ start, alternatives (spell start template) = bodies.map (spell start) := by
  obtain ⟨parts, inside, split⟩ :=
    exists_splitOn (template.filter fun glyph => glyph ≠ .plain '(' ∧ glyph ≠ .plain ')')
  refine ⟨(parts.reverse.dropWhile List.isEmpty).reverse, ?_, ?_⟩
  · intro body member
    have part := (List.dropWhile_suffix _).subset (List.mem_reverse.mp member)
    exact List.Subset.trans (inside body (List.mem_reverse.mp part)) (List.filter_subset_self _)
  · intro start
    have empty : List.isEmpty ∘ spell start = List.isEmpty := by
      funext part
      rw [Function.comp_apply, Bool.eq_iff_iff, List.isEmpty_iff, List.isEmpty_iff]
      exact spell_eq_nil_iff
    rw [alternatives, withoutParentheses_spell, split start, dropTrailingEmpty, ← List.map_reverse,
      List.dropWhile_map, empty, List.map_reverse]

/-- Of all pieces of a template the symbols handed out are the only names in use. -/
theorem isAllocated_spell_iff {turn : Nat} (below : IsBelow turn template) :
    (Supply.mk (start + turn)).isAllocated (spell start template) = true ↔
      ∃ earlier < turn, template = [.symbol earlier] := by
  constructor
  · intro allocated
    obtain ⟨position, read, _⟩ := Supply.isAllocated_iff.mp allocated
    obtain ⟨c, digits, slot, round, same, found, rounds, _⟩ := Symbol.exists_of_position? read
    cases template with
    | nil => cases same
    | cons glyph behind =>
      have own := below glyph (by simp)
      have alone : behind = [] := by
        cases behind with
        | nil => rfl
        | cons next rest =>
          obtain ⟨e, others, spelled, noDigit, _⟩ := exists_of_spell start (below next (by simp))
          obtain ⟨d, suffix, leads⟩ := List.exists_cons_of_ne_nil (spell_glyph_ne_nil start glyph)
          rw [spell_cons, spell_cons, spelled, leads, List.cons_append] at same
          have member : e ∈ digits := (List.cons.inj same).2 ▸ by simp
          rw [Symbol.isDigit_of_round? rounds e member] at noDigit
          cases noDigit
      cases glyph with
      | symbol earlier => exact ⟨earlier, own, by rw [alone]⟩
      | plain d =>
        have letter : d ∈ Symbol.letters := by
          rw [spell_cons, Glyph.spell_plain, List.singleton_append] at same
          exact (List.cons.inj same).1 ▸ List.isSome_idxOf?.mp (by rw [found]; rfl)
        have upper := Symbol.isUpper_of_mem_letters letter
        rw [own.1] at upper
        cases upper
  · rintro ⟨earlier, less, rfl⟩
    rw [spell_cons, spell_nil, List.append_nil]
    exact Supply.isAllocated_nameAt (Nat.add_lt_add_left less start)

end Template

open Template

/-- Two runs in which the same symbols are single letters and no name begins another one. -/
structure Alike (first second count : Nat) : Prop where
  one : Apart first count
  other : Apart second count
  single : ∀ turn < count, first + turn < 25 ↔ second + turn < 25

/-- Both runs take the same piece from the front, or none. -/
def SameFront (first second : Nat) (template : Template) : Prop :=
  recognise (spell first template) = none ∧ recognise (spell second template) = none ∨
    ∃ piece rest : Template, template = piece ++ rest ∧ piece ≠ [] ∧
      recognise (spell first template) = some (spell first piece) ∧
        recognise (spell second template) = some (spell second piece)

namespace Alike

variable {first second count : Nat} {glyph : Glyph} {template : Template}

theorem mono {fewer : Nat} (alike : Alike first second count) (less : fewer ≤ count) : Alike first second fewer :=
  ⟨alike.one.mono less, alike.other.mono less, fun turn below => alike.single turn (Nat.lt_of_lt_of_le below less)⟩

private theorem length_nameAt_iff (position : Nat) : (Symbol.nameAt position).length = 1 ↔ position < 25 := by
  constructor
  · intro single
    have none : Symbol.roundSuffix (position / Symbol.letters.length) = [] :=
      List.length_eq_zero_iff.mp (Nat.succ.inj single)
    have round := Symbol.round?_roundSuffix (position / Symbol.letters.length)
    rw [none] at round
    have zero : 0 = position / 25 := Option.some.inj round
    omega
  · intro first
    rw [Symbol.nameAt_of_lt first]
    rfl

theorem of_length {one other : Nat} (names : ∀ turn < count, (Symbol.nameAt (first + turn)).length = one)
    (others : ∀ turn < count, (Symbol.nameAt (second + turn)).length = other) (single : one = 1 ↔ other = 1) :
    Alike first second count := by
  refine ⟨.of_length names, .of_length others, fun turn below => ?_⟩
  rw [← length_nameAt_iff, ← length_nameAt_iff, names turn below, others turn below]
  exact single

theorem length_spell_iff (alike : Alike first second count) (below : glyph.IsBelow count) :
    (glyph.spell first).length = 1 ↔ (glyph.spell second).length = 1 := by
  cases glyph with
  | plain c => exact Iff.rfl
  | symbol turn => exact (length_nameAt_iff _).trans ((alike.single turn below).trans (length_nameAt_iff _).symm)

private theorem sameFront_word (alike : Alike first second count) {opening behind : Template}
    (opens : opening = [] ∨ opening = [.plain '(']) (word : glyph.isWord = true) (below : glyph.IsBelow count) :
    SameFront first second (opening ++ glyph :: behind) := by
  obtain ⟨piece, rest, alone, same, present, each⟩ := exists_piece opens word behind
  have both := alike.length_spell_iff below
  by_cases short : alone ∧ (glyph.spell first).length = 1
  · have one := (each first).1 short.1
    have other := (each second).1 short.1
    have single := both.mp short.2
    rcases opens with rfl | rfl
    · exact Or.inl ⟨recognise_alone word short.2 one, recognise_alone word single other⟩
    · by_cases closed : ∃ rest, behind = .plain ')' :: .plain '+' :: rest
      · obtain ⟨rest, rfl⟩ := closed
        exact Or.inr ⟨[.plain '(', glyph, .plain ')', .plain '+'], rest, rfl, by simp,
          recognise_alone_closed word short.2 rest, recognise_alone_closed word single rest⟩
      · have apart : ∀ rest, behind ≠ .plain ')' :: .plain '+' :: rest := fun rest same => closed ⟨rest, same⟩
        exact Or.inl ⟨recognise_alone_opened word short.2 one apart, recognise_alone_opened word single other apart⟩
  · have one := (each first).2 short
    have other := (each second).2 fun own => short ⟨own.1, both.mpr own.2⟩
    refine Or.inr ⟨piece, rest, same, present, ?_, ?_⟩
    · rw [same, spell_append]
      exact recognise_append one
    · rw [same, spell_append]
      exact recognise_append other

private theorem sameFront_opening (alike : Alike first second count) (below : IsBelow count template) :
    SameFront first second (.plain '(' :: template) := by
  cases template with
  | nil => exact Or.inl ⟨rfl, rfl⟩
  | cons glyph behind =>
    cases word : glyph.isWord with
    | true => exact alike.sameFront_word (Or.inr rfl) word (below glyph (by simp))
    | false =>
      obtain ⟨c, rfl, gap⟩ := Glyph.exists_of_gap word
      exact Or.inl ⟨recognise_opening_gap gap _, recognise_opening_gap gap _⟩

theorem sameFront (alike : Alike first second count) (below : IsBelow count template) :
    SameFront first second template := by
  cases template with
  | nil => exact Or.inl ⟨rfl, rfl⟩
  | cons glyph behind =>
    cases word : glyph.isWord with
    | true => exact alike.sameFront_word (Or.inl rfl) word (below glyph (by simp))
    | false =>
      obtain ⟨c, rfl, gap⟩ := Glyph.exists_of_gap word
      by_cases opening : c = '('
      · rw [opening] at below ⊢
        exact alike.sameFront_opening fun glyph member => below glyph (by simp [member])
      · exact Or.inl ⟨recognise_of_gap gap opening _, recognise_of_gap gap opening _⟩

/-- Both runs find the same pieces. -/
theorem exists_findAll (alike : Alike first second count) (below : IsBelow count template) :
    ∃ pieces : List Template, (∀ piece ∈ pieces, piece ≠ [] ∧ piece ⊆ template) ∧
      findAll (spell first template) = pieces.map (spell first) ∧
        findAll (spell second template) = pieces.map (spell second) := by
  induction size : template.length using Nat.strongRecOn generalizing template with
  | ind length ih =>
    rcases alike.sameFront below with ⟨left, right⟩ | ⟨piece, rest, rfl, present, left, right⟩
    · cases template with
      | nil => exact ⟨[], by simp, rfl, rfl⟩
      | cons glyph rest =>
        rw [List.length_cons] at size
        have shorter : rest.length < length := by omega
        obtain ⟨pieces, inside, one, other⟩ := ih _ shorter (fun glyph member => below glyph (by simp [member])) rfl
        refine ⟨pieces, ?_, ?_, ?_⟩
        · exact fun piece member => (inside piece member).imp_right (List.subset_cons_of_subset glyph)
        · rw [findAll_spell_cons left, one]
        · rw [findAll_spell_cons right, other]
    · have filled := List.length_pos_iff.mpr present
      rw [List.length_append] at size
      have shorter : rest.length < length := by omega
      obtain ⟨pieces, inside, one, other⟩ := ih _ shorter (fun glyph member => below glyph (by simp [member])) rfl
      refine ⟨piece :: pieces, ?_, ?_, ?_⟩
      · intro found member
        rcases List.mem_cons.mp member with rfl | later
        · exact ⟨present, List.subset_append_left _ _⟩
        · exact (inside found later).imp_right (List.subset_append_of_subset_right piece)
      · rw [spell_append] at left ⊢
        rw [findAll_append (piece_of_recognise left), one, List.map_cons]
      · rw [spell_append] at right ⊢
        rw [findAll_append (piece_of_recognise right), other, List.map_cons]

end Alike
end SumStar
