import SumStar.Reduction.Sums
import SumStar.Proofs.SumGroups
import SumStar.Proofs.SymbolNames

/-! What a visit and a whole scan do to a text, read as functions of any text. As long as no gap is
lost they act on each run by itself, which is what the measure of the sum phase and its irreducible
texts rest on. -/

namespace SumStar.SumProgress

open Text

variable {memory : GroupMemory} {progress : SumProgress} {group name run : Text} {groups : List Text}

/-- Remembered groups have symbols that were handed out. -/
def Remembers (progress : SumProgress) : Prop :=
  ∀ entry ∈ progress.known, ∃ position < progress.supply.position, entry.2 = .nth position

/-- The name that a visit puts in the place of the group, unless it passes the group over. -/
def replacement? (progress : SumProgress) (group : Text) : Option Text :=
  if progress.supply.isAllocated group then
    none
  else
    match progress.known.lookup group with
    | some symbol => some symbol.name
    | none => some progress.supply.peek.name

/-- What a visit makes of any text. -/
def respell (progress : SumProgress) (group text : Text) : Text :=
  match progress.replacement? group with
  | some name => replaceAll group name text
  | none => text

/-- What visits one after the other make of any text. -/
def respellAll (memory : GroupMemory) (progress : SumProgress) : List Text → Text → Text
  | [], text => text
  | group :: groups, text => respellAll memory (progress.visit memory group) groups (progress.respell group text)

theorem remembers_initial (expression : Text) (supply : Supply) : (initial expression supply).Remembers := by
  intro entry member
  cases member

theorem replacement?_of_not_isAllocated (fresh : progress.supply.isAllocated group = false) :
    ∃ name, progress.replacement? group = some name := by
  rw [replacement?, fresh, if_neg Bool.false_ne_true]
  cases progress.known.lookup group with
  | some symbol => exact ⟨_, rfl⟩
  | none => exact ⟨_, rfl⟩

theorem isAllocated_of_replacement? (found : progress.replacement? group = none) :
    progress.supply.isAllocated group = true := by
  cases fresh : progress.supply.isAllocated group with
  | true => rfl
  | false =>
    obtain ⟨name, other⟩ := replacement?_of_not_isAllocated fresh
    rw [found] at other
    cases other

theorem expression_visit :
    (progress.visit memory group).expression = progress.respell group progress.expression := by
  unfold visit respell replacement?
  split
  · rfl
  · cases progress.known.lookup group <;> rfl

theorem position_visit_le : progress.supply.position ≤ (progress.visit memory group).supply.position := by
  unfold visit
  split
  · exact Nat.le_refl _
  · cases progress.known.lookup group with
    | some symbol => exact Nat.le_refl _
    | none => exact Nat.le_succ _

theorem Remembers.visit (remembers : progress.Remembers) : (progress.visit memory group).Remembers := by
  unfold SumProgress.visit
  split
  · exact remembers
  · cases progress.known.lookup group with
    | some symbol => exact remembers
    | none =>
      intro entry member
      cases memory with
      | scan =>
        obtain ⟨position, below, same⟩ := remembers entry member
        exact ⟨position, Nat.lt_succ_of_lt below, same⟩
      | run =>
        rcases List.mem_cons.mp member with rfl | earlier
        · exact ⟨progress.supply.position, Nat.lt_succ_self _, rfl⟩
        · obtain ⟨position, below, same⟩ := remembers entry earlier
          exact ⟨position, Nat.lt_succ_of_lt below, same⟩

theorem mem_of_lookup {known : List (Text × Symbol)} {symbol : Symbol}
    (found : known.lookup group = some symbol) : (group, symbol) ∈ known := by
  induction known with
  | nil => cases found
  | cons entry known ih =>
    obtain ⟨first, value⟩ := entry
    rw [List.lookup_cons] at found
    split at found
    next same =>
      cases found
      rw [beq_iff_eq.mp same]
      exact List.mem_cons_self
    next => exact List.mem_cons_of_mem _ (ih found)

theorem not_isAllocated_of_replacement? (found : progress.replacement? group = some name) :
    progress.supply.isAllocated group = false := by
  cases fresh : progress.supply.isAllocated group with
  | false => rfl
  | true => simp [replacement?, fresh] at found

/-- The name put in was handed out before or is handed out by the visit. -/
theorem exists_of_replacement? (memory : GroupMemory) (remembers : progress.Remembers)
    (found : progress.replacement? group = some name) :
    ∃ position < (progress.visit memory group).supply.position, name = Symbol.nameAt position := by
  have fresh := not_isAllocated_of_replacement? found
  simp only [replacement?, fresh, Bool.false_eq_true, ↓reduceIte] at found
  unfold visit
  rw [fresh, if_neg Bool.false_ne_true]
  cases remembered : progress.known.lookup group with
  | some symbol =>
    rw [remembered] at found
    obtain ⟨position, below, same⟩ := remembers _ (mem_of_lookup remembered)
    refine ⟨position, below, ?_⟩
    rw [← Option.some.inj found]
    exact congrArg Symbol.name same
  | none =>
    rw [remembered] at found
    exact ⟨progress.supply.position, Nat.lt_succ_self _, (Option.some.inj found).symm⟩

theorem exists_nameAt_of_replacement? (remembers : progress.Remembers)
    (found : progress.replacement? group = some name) : ∃ position, name = Symbol.nameAt position := by
  obtain ⟨position, _, same⟩ := exists_of_replacement? .scan remembers found
  exact ⟨position, same⟩

theorem expression_foldl (progress : SumProgress) (groups : List Text) :
    (groups.foldl (visit memory) progress).expression =
      progress.respellAll memory groups progress.expression := by
  induction groups generalizing progress with
  | nil => rfl
  | cons group groups ih => rw [List.foldl_cons, ih, expression_visit, respellAll]

theorem Remembers.foldl (remembers : progress.Remembers) (groups : List Text) :
    (groups.foldl (SumProgress.visit memory) progress).Remembers := by
  induction groups generalizing progress with
  | nil => exact remembers
  | cons group groups ih => exact ih remembers.visit

theorem Remembers.scan (remembers : progress.Remembers) : (progress.scan memory).Remembers :=
  remembers.foldl _

theorem position_foldl_le (progress : SumProgress) (groups : List Text) :
    progress.supply.position ≤ (groups.foldl (visit memory) progress).supply.position := by
  induction groups generalizing progress with
  | nil => exact Nat.le_refl _
  | cons group groups ih => exact Nat.le_trans position_visit_le (ih (progress.visit memory group))

theorem isWordly_of_replacement? (remembers : progress.Remembers)
    (found : progress.replacement? group = some name) : IsWordly name := by
  obtain ⟨position, rfl⟩ := exists_nameAt_of_replacement? remembers found
  exact fun c member => Symbol.isWord_of_mem_nameAt member

theorem gaps_respell_le (remembers : progress.Remembers) (present : group ≠ []) (text : Text) :
    gaps (progress.respell group text) ≤ gaps text := by
  unfold respell
  cases found : progress.replacement? group with
  | none => exact Nat.le_refl _
  | some name => exact gaps_replaceAll_le present (isWordly_of_replacement? remembers found) text

theorem gaps_respellAll_le (remembers : progress.Remembers) (present : ∀ group ∈ groups, group ≠ [])
    (text : Text) : gaps (progress.respellAll memory groups text) ≤ gaps text := by
  induction groups generalizing progress text with
  | nil => exact Nat.le_refl _
  | cons group groups ih =>
    have kept : (progress.visit memory group).Remembers := remembers.visit
    have later := ih kept (fun other member => present other (by simp [member])) (progress.respell group text)
    exact Nat.le_trans later (gaps_respell_le remembers (present group (by simp)) text)

/-- A visit that takes no gap away acts on the runs one by one. -/
theorem runs_respell (remembers : progress.Remembers) (present : group ≠ []) {text : Text}
    (same : gaps (progress.respell group text) = gaps text) :
    runs (progress.respell group text) = (runs text).map (progress.respell group) := by
  unfold respell at same ⊢
  cases found : progress.replacement? group with
  | none => simp
  | some name =>
    have words := isWordly_of_replacement? remembers found
    rw [found] at same
    by_cases wordly : IsWordly group
    · exact runs_replaceAll present wordly words text
    · have absent : ¬ group <:+: text := fun inside =>
        absurd same (Nat.ne_of_lt (gaps_replaceAll_lt present words wordly inside))
      have fixed : ∀ run ∈ runs text, replaceAll group name run = run := by
        intro run member
        apply replaceAll_of_absent present
        exact fun inside => wordly fun c at_ => isWordly_of_mem_runs member c (inside.subset at_)
      simp only [replaceAll_of_absent present absent, List.map_congr_left fixed, List.map_id']

theorem runs_respellAll (remembers : progress.Remembers) (present : ∀ group ∈ groups, group ≠ [])
    {text : Text} (same : gaps (progress.respellAll memory groups text) = gaps text) :
    runs (progress.respellAll memory groups text) =
      (runs text).map (progress.respellAll memory groups) := by
  induction groups generalizing progress text with
  | nil => simp [respellAll]
  | cons group groups ih =>
    have rest : ∀ group ∈ groups, group ≠ [] := fun other member => present other (by simp [member])
    have first := gaps_respell_le remembers (present group (by simp)) text
    have kept : (progress.visit memory group).Remembers := remembers.visit
    have later : gaps ((progress.visit memory group).respellAll memory groups (progress.respell group text)) ≤
        gaps (progress.respell group text) := gaps_respellAll_le kept rest _
    rw [respellAll] at same ⊢
    rw [ih kept rest (by omega),
      runs_respell remembers (present group (by simp)) (by omega), List.map_map]
    rfl

end SumStar.SumProgress
