import Mathlib.Data.List.Basic
import SumStar.Group.Shape

/-! The rests that shapes leave. There is one rule for each way a shape is put together, for the rest that the
preferred way leaves as well as for all rests, so that what a shape takes is found along its structure. -/

namespace SumStar.Shape

variable {first second shape round : Shape} {accepts : Char → Bool} {text middle rest piece : Text} {c d : Char}

theorem rests_literal (c d : Char) (rest : Text) : (literal c).rests (d :: rest) = if d = c then [rest] else [] := by
  simp [literal, rests]

theorem rests_optional_self (c : Char) (rest : Text) : (optional (literal c)).rests (c :: rest) = [rest, c :: rest] := by
  simp [optional, rests, rests_literal]

theorem rests_optional_of_ne (other : d ≠ c) (rest : Text) :
    (optional (literal c)).rests (d :: rest) = [d :: rest] := by
  simp [optional, rests, rests_literal, other]

/-- The rounds are bounded by the text only so that they end. -/
theorem restsOfRounds_eq (round : Text → List Text) {rounds others : Nat} (enough : text.length ≤ rounds)
    (alike : text.length ≤ others) : restsOfRounds round rounds text = restsOfRounds round others text := by
  induction rounds generalizing others text with
  | zero =>
    obtain rfl := List.length_eq_zero_iff.mp (Nat.le_zero.mp enough)
    cases others <;> simp [restsOfRounds]
  | succ rounds ih =>
    cases others with
    | zero =>
      obtain rfl := List.length_eq_zero_iff.mp (Nat.le_zero.mp alike)
      simp [restsOfRounds]
    | succ others =>
      rw [restsOfRounds, restsOfRounds]
      refine congrArg (· ++ [text]) (List.flatMap_congr fun rest member => ?_)
      have shorter : rest.length < text.length := of_decide_eq_true (List.mem_filter.mp member).2
      exact ih (by omega) (by omega)

theorem rests_repeated (round : Shape) (text : Text) :
    (repeated round).rests text =
      ((round.rests text).filter fun rest => rest.length < text.length).flatMap (repeated round).rests ++ [text] := by
  cases text with
  | nil => simp [rests, restsOfRounds]
  | cons c behind =>
    rw [rests, List.length_cons, restsOfRounds]
    refine congrArg (· ++ [c :: behind]) (List.flatMap_congr fun rest member => ?_)
    have shorter : rest.length < (c :: behind).length := of_decide_eq_true (List.mem_filter.mp member).2
    exact restsOfRounds_eq round.rests (Nat.le_of_lt_succ shorter) (Nat.le_refl _)

theorem rests_repeated_cons (accepts : Char → Bool) (c : Char) (rest : Text) :
    (repeated (one accepts)).rests (c :: rest) =
      (if accepts c then (repeated (one accepts)).rests rest else []) ++ [c :: rest] := by
  rw [rests_repeated]
  by_cases own : accepts c = true <;> simp [rests, own]

/-- The rest that the preferred way leaves. -/
def Prefers (shape : Shape) (text rest : Text) : Prop :=
  (shape.rests text).head? = some rest

theorem Prefers.rests_ne_nil (prefers : Prefers shape text rest) : shape.rests text ≠ [] := by
  intro refused
  rw [Prefers, refused] at prefers
  cases prefers

theorem prefers_one (own : accepts c = true) (rest : Text) : Prefers (one accepts) (c :: rest) rest := by
  simp [Prefers, rests, own]

theorem prefers_literal (c : Char) (rest : Text) : Prefers (literal c) (c :: rest) rest :=
  prefers_one (beq_self_eq_true c) rest

theorem Prefers.sequence (here : Prefers first text middle) (there : Prefers second middle rest) :
    Prefers (.sequence first second) text rest := by
  obtain ⟨others, ahead⟩ := List.head?_eq_some_iff.mp here
  obtain ⟨further, behind⟩ := List.head?_eq_some_iff.mp there
  rw [Prefers, rests, ahead, List.flatMap_cons, behind]
  rfl

theorem Prefers.choice (prefers : Prefers first text rest) (second : Shape) :
    Prefers (.choice first second) text rest := by
  obtain ⟨others, same⟩ := List.head?_eq_some_iff.mp prefers
  rw [Prefers, rests, same]
  rfl

theorem Prefers.choice_of_refused (prefers : Prefers second text rest) (refused : first.rests text = []) :
    Prefers (.choice first second) text rest := by
  rwa [Prefers, rests, refused]

theorem prefers_optional_of_refused (refused : shape.rests text = []) : Prefers (optional shape) text text :=
  .choice_of_refused (by simp [Prefers, rests]) refused

theorem prefers_repeated_of_refused (refused : round.rests text = []) : Prefers (repeated round) text text := by
  rw [Prefers, rests_repeated, refused]
  rfl

theorem Prefers.repeated (here : Prefers round text middle) (shorter : middle.length < text.length)
    (there : Prefers (.repeated round) middle rest) : Prefers (.repeated round) text rest := by
  obtain ⟨others, ahead⟩ := List.head?_eq_some_iff.mp here
  obtain ⟨further, behind⟩ := List.head?_eq_some_iff.mp there
  rw [Prefers, rests_repeated, ahead, List.filter_cons, if_pos (decide_eq_true shorter), List.flatMap_cons, behind]
  rfl

theorem Prefers.take?_eq (prefers : Prefers shape (piece ++ rest) rest) : shape.take? (piece ++ rest) = some piece := by
  rw [take?, prefers]
  simp

theorem take?_of_refused (refused : shape.rests text = []) : shape.take? text = none := by
  rw [take?, refused]
  rfl

theorem mem_sequence : rest ∈ (sequence first second).rests text ↔ ∃ middle ∈ first.rests text, rest ∈ second.rests middle :=
  List.mem_flatMap

theorem exists_of_mem_one (member : rest ∈ (one accepts).rests text) : ∃ c, accepts c = true ∧ text = c :: rest := by
  cases text with
  | nil => cases member
  | cons c behind =>
    rw [rests] at member
    split at member
    next own => exact ⟨c, own, by rw [List.mem_singleton.mp member]⟩
    next => cases member

theorem eq_cons_of_mem_literal (member : rest ∈ (literal c).rests text) : text = c :: rest := by
  obtain ⟨d, same, rfl⟩ := exists_of_mem_one member
  rw [beq_iff_eq.mp same]

theorem exists_of_mem_optional (member : rest ∈ (optional (literal c)).rests text) :
    ∃ opening, (opening = [] ∨ opening = [c]) ∧ text = opening ++ rest := by
  rcases List.mem_append.mp member with taken | passed
  · exact ⟨[c], Or.inr rfl, eq_cons_of_mem_literal taken⟩
  · exact ⟨[], Or.inl rfl, (List.mem_singleton.mp passed).symm⟩

theorem exists_of_mem_repeated_one (member : rest ∈ (repeated (one accepts)).rests text) :
    ∃ front, (∀ c ∈ front, accepts c = true) ∧ text = front ++ rest := by
  induction text with
  | nil =>
    rw [rests_repeated] at member
    exact ⟨[], by simp, (List.mem_singleton.mp member).symm⟩
  | cons c behind ih =>
    rw [rests_repeated_cons] at member
    rcases List.mem_append.mp member with further | stopped
    · split at further
      next own =>
        obtain ⟨front, all, rfl⟩ := ih further
        exact ⟨c :: front, List.forall_mem_cons.mpr ⟨own, all⟩, rfl⟩
      next => cases further
    · exact ⟨[], by simp, (List.mem_singleton.mp stopped).symm⟩

end SumStar.Shape
