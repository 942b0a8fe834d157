import SumStar.Proofs.SymbolNames

/-! Names and positions determine each other. A text that looks like a name is the name of exactly one
position, which is what it is read as, so a supply knows a text if and only if it has gone past a position with
that name. Leaving digits off at the end of a name gives the name of an earlier position: a piece of a name that
is in use is never mistaken for a group. -/

namespace SumStar

namespace Symbol

/-- A letter other than `S`, and behind it nothing or a number that is written without leading zero. -/
def isNumbered : Text → Bool
  | [] => false
  | letter :: suffix => letter.isUpper && letter != 'S' && suffix.head? != some '0' && suffix.all Char.isDigit

variable {text piece suffix : Text} {c : Char} {position round : Nat}

theorem mem_letters_iff : c ∈ letters ↔ c.isUpper = true ∧ c ≠ 'S' := by
  constructor
  · intro member
    refine ⟨isUpper_of_mem_letters member, ?_⟩
    rintro rfl
    exact absurd member (by decide)
  · rintro ⟨upper, other⟩
    have low : 65 ≤ c.toNat := UInt32.le_iff_toNat_le.mp (of_decide_eq_true upper).1
    have high := toNat_of_isUpper upper
    have each : ∀ code < 91, 65 ≤ code → Char.ofNat code ≠ 'S' → Char.ofNat code ∈ letters := by decide
    have found := each c.toNat (by omega) low
    simp only [Char.ofNat_toNat] at found
    exact found other

private theorem digitChar_of_isDigit (digit : c.isDigit = true) :
    c.toNat - '0'.toNat < 10 ∧ (c.toNat - '0'.toNat).digitChar = c := by
  obtain ⟨above, below⟩ := Bool.and_eq_true_iff.mp digit
  have first : 48 ≤ c.toNat := UInt32.le_iff_toNat_le.mp (of_decide_eq_true above)
  have last : c.toNat ≤ 57 := UInt32.le_iff_toNat_le.mp (of_decide_eq_true below)
  have small : c.toNat - '0'.toNat < 10 := by
    change c.toNat - 48 < 10
    omega
  refine ⟨small, Char.toNat_inj.mp ?_⟩
  rw [Nat.toNat_digitChar_of_lt_ten small]
  change 48 + (c.toNat - 48) = c.toNat
  omega

theorem toDigits_ofDigitChars {digits : Text} (all : ∀ c ∈ digits, c.isDigit = true) {number : Nat}
    (positive : 0 < number) :
    Nat.toDigits 10 (Nat.ofDigitChars 10 digits number) = Nat.toDigits 10 number ++ digits := by
  induction digits generalizing number with
  | nil => simp
  | cons c digits ih =>
    obtain ⟨small, written⟩ := digitChar_of_isDigit (all c List.mem_cons_self)
    have longer : Nat.toDigits 10 (10 * number + (c.toNat - '0'.toNat)) = Nat.toDigits 10 number ++ [c] := by
      rw [← Nat.toDigits_append_toDigits (by decide) positive small, Nat.toDigits_of_lt_base small, written]
    rw [Nat.ofDigitChars_cons, ih (fun d member => all d (List.mem_cons_of_mem c member)) (by omega), longer,
      List.append_assoc, List.singleton_append]

/-- The number of a round is written the way it was read. -/
theorem roundSuffix_of_round? (read : round? suffix = some round) : roundSuffix round = suffix := by
  cases suffix with
  | nil =>
    obtain rfl := Option.some.inj read
    rfl
  | cons c rest =>
    have digits := isDigit_of_round? read
    simp only [round?] at read
    split at read
    next shape =>
      obtain ⟨small, written⟩ := digitChar_of_isDigit (digits c List.mem_cons_self)
      have first : Nat.toDigits 10 (c.toNat - '0'.toNat) = [c] := by
        rw [Nat.toDigits_of_lt_base small, written]
      have positive : 0 < c.toNat - '0'.toNat := by
        apply Nat.pos_of_ne_zero
        intro zero
        rw [zero] at written
        exact shape.1 written.symm
      have spelled : Nat.toDigits 10 round = c :: rest := by
        have value := Option.some.inj read
        rw [Nat.ofDigitChars_cons, Nat.mul_zero, Nat.zero_add] at value
        rw [← value, toDigits_ofDigitChars (fun d member => digits d (List.mem_cons_of_mem c member)) positive, first]
        rfl
      have later : round ≠ 0 := by
        rintro rfl
        exact shape.1 (List.cons.inj spelled).1.symm
      rw [roundSuffix, if_neg later, spelled]
    next => cases read

theorem nameAt_of_position? (read : position? text = some position) : nameAt position = text := by
  obtain ⟨c, suffix, slot, round, rfl, found, rounds, rfl⟩ := exists_of_position? read
  obtain ⟨inside, letter, _⟩ := List.idxOf?_eq_some_iff.mp found
  have remainder : (letters.length * round + slot) % letters.length = slot := by
    rw [Nat.mul_add_mod, Nat.mod_eq_of_lt inside]
  have quotient : (letters.length * round + slot) / letters.length = round := by
    rw [Nat.mul_add_div (by decide), Nat.div_eq_of_lt inside, Nat.add_zero]
  rw [nameAt, remainder, quotient, roundSuffix_of_round? rounds, List.getD_eq_getElem?_getD,
    List.getElem?_eq_getElem inside, Option.getD_some, letter]

theorem position?_eq_some_iff : position? text = some position ↔ nameAt position = text := by
  constructor
  · exact nameAt_of_position?
  · rintro rfl
    exact position?_nameAt position

theorem exists_round?_iff :
    (∃ round, round? suffix = some round) ↔ suffix.head? ≠ some '0' ∧ suffix.all Char.isDigit = true := by
  cases suffix with
  | nil => simp [round?]
  | cons c rest => simp [round?]

/-- The names of positions are the texts of that form. -/
theorem isNumbered_iff : isNumbered text = true ↔ ∃ position, nameAt position = text := by
  simp only [← position?_eq_some_iff]
  cases text with
  | nil => simp [isNumbered, position?]
  | cons c suffix =>
    have letter : c.isUpper = true ∧ c ≠ 'S' ↔ ∃ slot, letters.idxOf? c = some slot := by
      rw [← mem_letters_iff, ← List.isSome_idxOf?, Option.isSome_iff_exists]
    simp only [isNumbered, Bool.and_eq_true, bne_iff_ne, letter, and_assoc, ← exists_round?_iff]
    constructor
    · rintro ⟨⟨slot, found⟩, round, rounds⟩
      exact ⟨letters.length * round + slot, by simp [position?, found, rounds]⟩
    · rintro ⟨position, read⟩
      obtain ⟨_, _, slot, round, same, found, rounds, _⟩ := exists_of_position? read
      obtain ⟨rfl, rfl⟩ := List.cons.inj same
      exact ⟨⟨slot, found⟩, round, rounds⟩

/-- A name loses digits at its end and stays a name, of a position that is not larger. -/
theorem exists_nameAt_of_prefix (front : piece <+: nameAt position) (long : 2 ≤ piece.length) :
    ∃ earlier ≤ position, nameAt earlier = piece := by
  have lettered : ¬ piece.all Char.isDigit = true := by
    intro digits
    obtain ⟨rest, same⟩ := front
    cases piece with
    | nil => simp at long
    | cons c tail =>
      have letter : c ∈ letters := (List.cons.inj same).1 ▸ letter_mem position
      exact absurd (List.all_eq_true.mp digits c List.mem_cons_self)
        (ne_true_of_eq_false (not_isDigit_of_mem_letters letter))
  let supply : Supply := ⟨position + 1⟩
  have own : supply.isAllocated (nameAt position) = true := Supply.isAllocated_nameAt (Nat.lt_succ_self position)
  obtain ⟨earlier, read, below⟩ :=
    Supply.isAllocated_iff.mp (Supply.isAllocated_of_infix own front.isInfix long lettered)
  exact ⟨earlier, Nat.le_of_lt_succ below, nameAt_of_position? read⟩

end Symbol

namespace Supply

open SumStar.Symbol

/-- What can be asked of a supply. -/
inductive Step where
  | peek
  | advance
  | allocate
  deriving DecidableEq, Repr

/-- The symbol that a step answers, if it answers one, and the supply behind the step. -/
def perform (supply : Supply) : Step → Option Symbol × Supply
  | .peek => (some supply.peek, supply)
  | .advance => (none, supply.advance)
  | .allocate => (some supply.allocate.1, supply.allocate.2)

def after (supply : Supply) (steps : List Step) : Supply :=
  steps.foldl (fun supply step => (supply.perform step).2) supply

/-- What the steps answer, one entry for each. -/
def answers (supply : Supply) : List Step → List (Option Symbol)
  | [] => []
  | step :: steps => (supply.perform step).1 :: (supply.perform step).2.answers steps

/-- The position that has been reached in front of a step. -/
def reached (supply : Supply) (steps : List Step) (index : Nat) : Nat :=
  supply.position + (steps.take index).countP (· ≠ .peek)

theorem perform_eq (supply : Supply) (step : Step) :
    supply.perform step = (if step = .advance then none else some (.nth supply.position),
      ⟨supply.position + if step = .peek then 0 else 1⟩) := by
  cases step <;> rfl

theorem reached_cons (supply : Supply) (step : Step) (steps : List Step) (index : Nat) :
    supply.reached (step :: steps) (index + 1) = (supply.perform step).2.reached steps index := by
  rw [reached, reached, perform_eq, List.take_succ_cons, List.countP_cons]
  by_cases looking : step = .peek
  · simp [looking]
  · simp only [looking, ne_eq, not_false_eq_true, decide_true, if_true, if_false]
    omega

theorem position_after (supply : Supply) (steps : List Step) :
    (supply.after steps).position = supply.reached steps steps.length := by
  induction steps generalizing supply with
  | nil => rfl
  | cons step steps ih =>
    change ((supply.perform step).2.after steps).position = _
    rw [ih, List.length_cons, reached_cons]

theorem getElem?_answers (supply : Supply) (steps : List Step) (index : Nat) :
    (supply.answers steps)[index]? = steps[index]?.map fun step =>
      if step = .advance then none else some (.nth (supply.reached steps index)) := by
  induction steps generalizing supply index with
  | nil => rfl
  | cons first steps ih =>
    cases index with
    | zero =>
      rw [answers, perform_eq]
      rfl
    | succ index => rw [answers, List.getElem?_cons_succ, List.getElem?_cons_succ, ih, reached_cons]

theorem eq_nth_of_answers {supply : Supply} {steps : List Step} {index : Nat} {symbol : Symbol}
    (answered : (supply.answers steps)[index]? = some (some symbol)) : symbol = .nth (supply.reached steps index) := by
  rw [getElem?_answers] at answered
  obtain ⟨step, _, answer⟩ := Option.map_eq_some_iff.mp answered
  split at answer
  · cases answer
  · exact (Option.some.inj answer).symm

theorem reached_lt_of_allocate (supply : Supply) {steps : List Step} {earlier later : Nat} (order : earlier < later)
    (given : steps[earlier]? = some .allocate) : supply.reached steps earlier < supply.reached steps later := by
  have one : steps.take (earlier + 1) = steps.take earlier ++ [.allocate] := by
    rw [List.take_add_one, given]
    rfl
  have front : (steps.take (earlier + 1)).Sublist (steps.take later) := (List.take_prefix_take_left order).sublist
  have least := front.countP_le (p := (· ≠ Step.peek))
  have next : [Step.allocate].countP (· ≠ .peek) = 1 := rfl
  rw [one, List.countP_append, next] at least
  exact Nat.add_lt_add_left least supply.position

theorem isAllocated_iff_exists_nameAt {supply : Supply} {text : Text} :
    supply.isAllocated text = true ↔ ∃ position < supply.position, nameAt position = text := by
  simp only [isAllocated_iff, position?_eq_some_iff, and_comm]

/-- Positions and names of the form are in bijection, and the name of the start symbol is none of them. Every
step that answers a symbol answers the one of the position reached in front of it, so a name that was handed
out is not answered again, and what a supply knows are the names of the positions it has gone past. A piece of
two characters or more at the front of a name is the name of the same position or of an earlier one. -/
theorem names_exact :
    (∀ first second, nameAt first = nameAt second → first = second) ∧
      (∀ text, isNumbered text = true ↔ ∃ position, nameAt position = text) ∧
      (∀ position, nameAt position ≠ start.name) ∧
      (∀ (supply : Supply) (steps : List Step),
        (supply.after steps).position = supply.reached steps steps.length ∧
        (∀ index step, steps[index]? = some step → ∃ answer, (supply.answers steps)[index]? = some answer ∧
          answer.map name = if step = .advance then none else some (nameAt (supply.reached steps index))) ∧
        (∀ (earlier later : Nat) (given answered : Symbol), earlier < later → steps[earlier]? = some Step.allocate →
          (supply.answers steps)[earlier]? = some (some given) →
          (supply.answers steps)[later]? = some (some answered) → given.name ≠ answered.name) ∧
        ∀ text, (supply.after steps).isAllocated text = true ↔ isNumbered text = true ∧
          ∃ position < supply.reached steps steps.length, nameAt position = text) ∧
      ∀ position piece, piece <+: nameAt position → 2 ≤ piece.length →
        ∃ earlier ≤ position, nameAt earlier = piece := by
  refine ⟨fun _ _ => nameAt_injective, fun _ => isNumbered_iff, nameAt_ne_start, ?_, fun _ _ => exists_nameAt_of_prefix⟩
  intro supply steps
  refine ⟨position_after supply steps, ?_, ?_, ?_⟩
  · intro index step asked
    rw [getElem?_answers, asked]
    exact ⟨_, rfl, by cases step <;> rfl⟩
  · intro earlier later given answered order allocated first second same
    obtain rfl := eq_nth_of_answers first
    obtain rfl := eq_nth_of_answers second
    have equal := nameAt_injective same
    have less := reached_lt_of_allocate supply order allocated
    omega
  · intro text
    rw [isAllocated_iff_exists_nameAt, position_after]
    exact ⟨fun ⟨position, below, named⟩ => ⟨isNumbered_iff.mpr ⟨position, named⟩, position, below, named⟩, And.right⟩

/-- A name is passed over, the next one is looked at and then handed out. It is `A11`, it is known from then on,
the one that is handed out behind it is another, and the `A1` at its front names an earlier position. -/
theorem names_exact_two_digits :
    let supply : Supply := ⟨274⟩
    let steps := [Step.advance, .peek, .allocate, .allocate]
    supply.answers steps = [none, some (nth 275), some (nth 275), some (nth 276)] ∧
      (nth 275).name = "A11".toList ∧ (nth 275).name ≠ (nth 276).name ∧
      (supply.after steps).isAllocated "A11".toList = true ∧
      "A1".toList <+: nameAt 275 ∧ ∃ earlier ≤ 275, nameAt earlier = "A1".toList := by
  intro supply steps
  obtain ⟨_, _, _, asked, front⟩ := names_exact
  obtain ⟨_, each, apart, known⟩ := asked supply steps
  have answers : supply.answers steps = [none, some (nth 275), some (nth 275), some (nth 276)] := by decide
  obtain ⟨answer, found, named⟩ := each 1 .peek rfl
  have piece : "A1".toList <+: nameAt 275 := by decide
  rw [answers] at found
  cases found
  refine ⟨answers, ?_, apart 2 3 _ _ (by decide) rfl (by rw [answers]; rfl) (by rw [answers]; rfl), ?_, piece, ?_⟩
  · exact Option.some.inj (named.trans (by decide))
  · exact (known _).mpr ⟨by decide, 275, by decide, by decide⟩
  · exact front 275 _ piece (by decide)

end Supply
end SumStar
