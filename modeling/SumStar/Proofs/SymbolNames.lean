import SumStar.Proofs.WordRuns
import SumStar.Symbol.Supply

/-! What the names of numbered symbols look like: a letter and digits, read back as the position
they were written for. Every longer piece at the front of a name is a name as well, of an earlier
position, so that no name that was handed out has another group inside it. -/

namespace SumStar

section Letters

variable {c : Char}

theorem toNat_of_isLower (lower : c.isLower = true) : 97 ≤ c.toNat ∧ c.toNat ≤ 122 := by
  obtain ⟨above, below⟩ := Bool.and_eq_true_iff.mp lower
  exact ⟨UInt32.le_iff_toNat_le.mp (of_decide_eq_true above), UInt32.le_iff_toNat_le.mp (of_decide_eq_true below)⟩

theorem toNat_of_isUpper (upper : c.isUpper = true) : c.toNat ≤ 90 :=
  UInt32.le_iff_toNat_le.mp (of_decide_eq_true upper).2

theorem toNat_of_isWord (word : isWord c = true) : 0x20 < c.toNat ∧ c.toNat < 0x7F := by
  change (c.isUpper || c.isLower || c.isDigit || c == '_') = true at word
  simp only [Bool.or_eq_true, beq_iff_eq] at word
  rcases word with ((upper | lower) | digit) | rfl
  · have above : 65 ≤ c.toNat := UInt32.le_iff_toNat_le.mp (of_decide_eq_true upper).1
    have below := toNat_of_isUpper upper
    omega
  · have bounds := toNat_of_isLower lower
    omega
  · obtain ⟨above, below⟩ := Bool.and_eq_true_iff.mp digit
    have first : 48 ≤ c.toNat := UInt32.le_iff_toNat_le.mp (of_decide_eq_true above)
    have last : c.toNat ≤ 57 := UInt32.le_iff_toNat_le.mp (of_decide_eq_true below)
    omega
  · decide

theorem not_isUpper_of_isLower (lower : c.isLower = true) : c.isUpper = false := by
  cases upper : c.isUpper with
  | false => rfl
  | true =>
    have above := (toNat_of_isLower lower).1
    have below := toNat_of_isUpper upper
    omega

theorem not_isDigit_of_isUpper (upper : c.isUpper = true) : c.isDigit = false := by
  cases digit : c.isDigit with
  | false => rfl
  | true =>
    have above : 65 ≤ c.toNat := UInt32.le_iff_toNat_le.mp (of_decide_eq_true upper).1
    have below : c.toNat ≤ 57 := UInt32.le_iff_toNat_le.mp (of_decide_eq_true (Bool.and_eq_true_iff.mp digit).2)
    omega

theorem isAlpha_of_isLower (lower : c.isLower = true) : c.isAlpha = true :=
  Bool.or_eq_true_iff.mpr (Or.inr lower)

theorem isAlpha_of_isUpper (upper : c.isUpper = true) : c.isAlpha = true :=
  Bool.or_eq_true_iff.mpr (Or.inl upper)

theorem isWord_of_isAlpha (alpha : c.isAlpha = true) : isWord c = true := by
  have alphanum : c.isAlphanum = true := Bool.or_eq_true_iff.mpr (Or.inl alpha)
  rw [isWord, alphanum, Bool.true_or]

end Letters

namespace Symbol

theorem isWord_of_mem_letters {c : Char} (member : c ∈ letters) : isWord c = true := by
  have all : letters.all isWord = true := by decide
  exact List.all_eq_true.mp all c member

theorem isUpper_of_mem_letters {c : Char} (member : c ∈ letters) : c.isUpper = true := by
  have all : letters.all Char.isUpper = true := by decide
  exact List.all_eq_true.mp all c member

theorem not_isDigit_of_mem_letters {c : Char} (member : c ∈ letters) : c.isDigit = false := by
  have all : letters.all (fun c => !c.isDigit) = true := by decide
  simpa using List.all_eq_true.mp all c member

theorem isWord_of_isDigit {c : Char} (digit : c.isDigit = true) : isWord c = true := by
  have alphanum : c.isAlphanum = true := Bool.or_eq_true_iff.mpr (Or.inr digit)
  rw [isWord, alphanum, Bool.true_or]

theorem isDigit_of_mem_roundSuffix {round : Nat} {c : Char} (member : c ∈ roundSuffix round) :
    c.isDigit = true := by
  unfold roundSuffix at member
  split at member
  · cases member
  · exact Nat.isDigit_of_mem_toDigits (by decide) (by decide) member

theorem letter_mem (position : Nat) : letters.getD (position % letters.length) 'A' ∈ letters := by
  have inside : position % letters.length < letters.length := Nat.mod_lt _ (by decide)
  rw [List.getD_eq_getElem?_getD, List.getElem?_eq_getElem inside]
  exact List.getElem_mem _

theorem isWord_of_mem_nameAt {position : Nat} {c : Char} (member : c ∈ nameAt position) :
    isWord c = true := by
  rcases List.mem_cons.mp member with rfl | digit
  · exact isWord_of_mem_letters (letter_mem position)
  · exact isWord_of_isDigit (isDigit_of_mem_roundSuffix digit)

private theorem toDigits_leads {number : Nat} (positive : 0 < number) :
    ∃ c rest, Nat.toDigits 10 number = c :: rest ∧ c ≠ '0' := by
  induction number using Nat.strongRecOn with
  | ind number ih =>
    by_cases small : number < 10
    · refine ⟨number.digitChar, [], Nat.toDigits_of_lt_base small, ?_⟩
      have each : ∀ digit < 10, 0 < digit → digit.digitChar ≠ '0' := by decide
      exact each number small positive
    · obtain ⟨c, rest, leading, nonzero⟩ := ih (number / 10) (by omega) (by omega)
      refine ⟨c, rest ++ [(number % 10).digitChar], ?_, nonzero⟩
      rw [Nat.toDigits_of_base_le (by decide) (by omega), leading]
      rfl

theorem round?_roundSuffix (round : Nat) : round? (roundSuffix round) = some round := by
  unfold roundSuffix
  split
  next first => rw [first]; rfl
  next later =>
    obtain ⟨c, rest, written, nonzero⟩ := toDigits_leads (Nat.pos_of_ne_zero later)
    have digits : (c :: rest).all Char.isDigit = true := by
      rw [← written]
      exact List.all_eq_true.mpr fun c member => Nat.isDigit_of_mem_toDigits (by decide) (by decide) member
    rw [written, round?, if_pos ⟨nonzero, digits⟩, ← written, Nat.ofDigitChars_ten_toDigits]

theorem position?_nameAt (position : Nat) : position? (nameAt position) = some position := by
  have found : ∀ slot < 25, letters.idxOf? (letters.getD slot 'A') = some slot := by decide
  have slot := found (position % letters.length) (Nat.mod_lt _ (by decide))
  simp only [nameAt, position?, slot, round?_roundSuffix]
  exact congrArg some (Nat.div_add_mod position letters.length)

theorem nameAt_injective {first second : Nat} (same : nameAt first = nameAt second) : first = second := by
  have positions := congrArg position? same
  rw [position?_nameAt, position?_nameAt] at positions
  exact Option.some.inj positions

theorem start_notMem_nameAt (position : Nat) : 'S' ∉ nameAt position := by
  intro member
  rcases List.mem_cons.mp member with same | digit
  · have absent : 'S' ∉ letters := by decide
    exact absent (same ▸ letter_mem position)
  · exact absurd (isDigit_of_mem_roundSuffix digit) (by decide)

theorem nameAt_ne_start (position : Nat) : nameAt position ≠ start.name := by
  intro same
  have own : 'S' ∈ start.name := List.mem_singleton_self _
  exact start_notMem_nameAt position (same ▸ own)

theorem name_injective : Function.Injective name := by
  intro first second same
  match first, second with
  | start, start => rfl
  | start, nth position => exact absurd same.symm (nameAt_ne_start position)
  | nth position, start => exact absurd same (nameAt_ne_start position)
  | nth position, nth other => exact congrArg nth (nameAt_injective same)

theorem isWordly_name (symbol : Symbol) : Text.IsWordly symbol.name := by
  cases symbol with
  | start => simp [Text.IsWordly, name, isWord]
  | nth position => exact fun c member => isWord_of_mem_nameAt member

theorem name_ne_nil (symbol : Symbol) : symbol.name ≠ [] := by
  cases symbol <;> exact List.cons_ne_nil _ _

/-- A text with a position is a letter in front of the digits of a round. -/
theorem exists_of_position? {text : Text} {position : Nat} (read : position? text = some position) :
    ∃ c suffix slot round, text = c :: suffix ∧ letters.idxOf? c = some slot ∧
      round? suffix = some round ∧ position = letters.length * round + slot := by
  cases text with
  | nil => cases read
  | cons c suffix =>
    simp only [position?] at read
    cases found : letters.idxOf? c with
    | none => simp [found] at read
    | some slot =>
      cases rounds : round? suffix with
      | none => simp [found, rounds] at read
      | some round =>
        simp only [found, rounds] at read
        exact ⟨c, suffix, slot, round, rfl, found, rounds, (Option.some.inj read).symm⟩

theorem isDigit_of_round? {suffix : Text} {round : Nat} (read : round? suffix = some round) :
    ∀ c ∈ suffix, c.isDigit = true := by
  cases suffix with
  | nil => simp
  | cons c rest =>
    simp only [round?] at read
    split at read
    next shape => exact List.all_eq_true.mp shape.2
    next => cases read

private theorem le_ofDigitChars (digits : Text) (start : Nat) : start ≤ Nat.ofDigitChars 10 digits start := by
  induction digits generalizing start with
  | nil => simp
  | cons c digits ih =>
    rw [Nat.ofDigitChars_cons]
    exact Nat.le_trans (by omega) (ih _)

/-- Leaving digits off at the end of a round leaves the number of an earlier round. -/
theorem round?_of_prefix {suffix piece : Text} {round : Nat} (read : round? suffix = some round)
    (front : piece <+: suffix) (present : piece ≠ []) :
    ∃ earlier, round? piece = some earlier ∧ earlier ≤ round := by
  obtain ⟨rest, rfl⟩ := front
  cases piece with
  | nil => exact False.elim (present rfl)
  | cons c piece =>
    simp only [List.cons_append, round?] at read ⊢
    split at read
    next shape =>
      have digits : (c :: piece).all Char.isDigit = true := by
        have all := shape.2
        rw [← List.cons_append, List.all_append, Bool.and_eq_true] at all
        exact all.1
      refine ⟨_, if_pos ⟨shape.1, digits⟩, ?_⟩
      rw [← Option.some.inj read, ← List.cons_append, Nat.ofDigitChars_append]
      exact le_ofDigitChars _ _
    next => cases read

end Symbol

namespace Supply

open SumStar.Symbol

variable {supply later : Supply} {text : Text}

theorem isAllocated_iff :
    supply.isAllocated text = true ↔ ∃ position, position? text = some position ∧ position < supply.position := by
  simp [isAllocated, Option.any_eq_true]

theorem isAllocated_nameAt {position : Nat} (below : position < supply.position) :
    supply.isAllocated (nameAt position) = true :=
  isAllocated_iff.mpr ⟨position, position?_nameAt position, below⟩

theorem isAllocated_mono (allocated : supply.isAllocated text = true)
    (grown : supply.position ≤ later.position) : later.isAllocated text = true := by
  obtain ⟨position, read, below⟩ := isAllocated_iff.mp allocated
  exact isAllocated_iff.mpr ⟨position, read, by omega⟩

theorem isWord_of_isAllocated (allocated : supply.isAllocated text = true) : ∀ c ∈ text, isWord c = true := by
  obtain ⟨position, read, _⟩ := isAllocated_iff.mp allocated
  obtain ⟨c, suffix, slot, round, rfl, found, rounds, _⟩ := exists_of_position? read
  intro other member
  rcases List.mem_cons.mp member with rfl | digit
  · exact isWord_of_mem_letters (List.isSome_idxOf?.mp (by rw [found]; rfl))
  · exact isWord_of_isDigit (isDigit_of_round? rounds other digit)

/-- A piece of a name in use is in use itself, unless it holds digits only. -/
theorem isAllocated_of_infix {name piece : Text} (allocated : supply.isAllocated name = true)
    (inside : piece <:+: name) (long : 2 ≤ piece.length) (lettered : ¬ piece.all Char.isDigit = true) :
    supply.isAllocated piece = true := by
  obtain ⟨position, read, below⟩ := isAllocated_iff.mp allocated
  obtain ⟨c, suffix, slot, round, rfl, found, rounds, same⟩ := exists_of_position? read
  rcases List.infix_cons_iff.mp inside with front | behind
  · cases piece with
    | nil => simp at long
    | cons first piece =>
      obtain ⟨rfl, tail⟩ := List.cons_prefix_cons.mp front
      have present : piece ≠ [] := by
        intro empty
        simp [empty] at long
      obtain ⟨earlier, rounds, before⟩ := round?_of_prefix rounds tail present
      refine isAllocated_iff.mpr ⟨letters.length * earlier + slot, by simp [position?, found, rounds], ?_⟩
      have := Nat.mul_le_mul_left letters.length before
      omega
  · have digits : piece.all Char.isDigit = true :=
      List.all_eq_true.mpr fun c member => isDigit_of_round? rounds c (behind.subset member)
    exact False.elim (lettered digits)

end Supply
end SumStar
