import SumStar.Proofs.SumTermination

/-! The outcome of the sum phase. The loop is stated without a limit on its scans; the limit that
the reduction uses is never what ends it, because each scan but the last lowers a rank that the
limit exceeds. The phase therefore reduces every sum, or it stops at an irreducible text. -/

namespace SumStar

open Text

/-- A text without a sum of two words, without a single character in front of `+` that parentheses
enclose, and without a parenthesis at a longer word. -/
structure Irreducible (text : Text) : Prop where
  sum : ∀ first last, isWord first = true → isWord last = true → ¬ [first, '+', last] <:+: text
  single : ∀ c, isWord c = true → ¬ ['(', c, ')', '+'] <:+: text
  opened : ∀ run, IsWordly run → 2 ≤ run.length → ¬ '(' :: run <:+: text
  closed : ∀ run, IsWordly run → 2 ≤ run.length → ¬ run ++ [')'] <:+: text

private theorem exists_place {piece text : Text} (inside : piece <:+: text) :
    ∃ rest, piece ++ rest <:+ text := by
  obtain ⟨before, after, same⟩ := inside
  exact ⟨after, before, by rw [← same, List.append_assoc]⟩

theorem irreducible_of_not_ready {text : Text} (settled : ∀ {place}, place <:+ text → ¬ SumGroup.Ready place) :
    Irreducible text := by
  constructor
  · intro first last one other inside
    obtain ⟨rest, place⟩ := exists_place inside
    exact settled place (.sum one other)
  · intro c word inside
    obtain ⟨rest, place⟩ := exists_place inside
    exact settled place (.single word)
  · intro run wordly long inside
    obtain ⟨rest, place⟩ := exists_place inside
    match run, long with
    | first :: second :: run, _ =>
      exact settled place (.opened (wordly first (by simp)) (wordly second (by simp)))
  · intro run wordly long inside
    rcases List.eq_nil_or_concat run with rfl | ⟨front, second, rfl⟩
    · simp at long
    rcases List.eq_nil_or_concat front with rfl | ⟨front, first, rfl⟩
    · simp at long
    have shorter : [first, second, ')'] <:+: text :=
      (List.suffix_append front [first, second, ')']).isInfix.trans (by simpa using inside)
    obtain ⟨rest, place⟩ := exists_place shorter
    exact settled place (.closed (wordly first (by simp)) (wordly second (by simp)))

private theorem fixed_of_map_eq {runs : List Text} {change : Text → Text} (same : runs.map change = runs) :
    ∀ run ∈ runs, change run = run := by
  induction runs with
  | nil => simp
  | cons run runs ih =>
    obtain ⟨here, later⟩ := List.cons.inj same
    intro other member
    rcases List.mem_cons.mp member with rfl | rest
    · exact here
    · exact ih later other rest

namespace SumProgress

variable {memory : GroupMemory} {progress last : SumProgress}

def numerals (progress : SumProgress) : Nat :=
  (runs progress.expression).countP isNumeral

def looseRuns (progress : SumProgress) : Nat :=
  (runs progress.expression).countP progress.supply.isLoose

/-- The groups that a scan visits. -/
def found (progress : SumProgress) : List Text :=
  (SumGroup.findAll progress.expression).eraseDups

theorem expression_scan :
    (progress.scan memory).expression = progress.respellAll memory progress.found progress.expression :=
  expression_foldl _ _

theorem position_scan_le : progress.supply.position ≤ (progress.scan memory).supply.position :=
  position_foldl_le progress _

theorem present_of_found : ∀ group ∈ progress.found, group ≠ [] := fun _ member =>
  SumGroup.ne_nil_of_mem_findAll (List.mem_eraseDups.mp member)

theorem long_of_found : ∀ group ∈ progress.found, 2 ≤ group.length := fun _ member =>
  SumGroup.two_le_length_of_mem_findAll (List.mem_eraseDups.mp member)

theorem mem_runs_of_found {group : Text} (member : group ∈ progress.found) (wordly : IsWordly group) :
    group ∈ runs progress.expression :=
  (SumGroup.mem_runs_of_mem_findAll (List.mem_eraseDups.mp member) wordly).1

theorem mem_runs_of_isNumeral {group : Text} (member : group ∈ progress.found)
    (numeral : isNumeral group = true) : group ∈ runs progress.expression := by
  apply mem_runs_of_found member
  simp only [isNumeral, Bool.and_eq_true, List.all_eq_true] at numeral
  exact fun c inside => Symbol.isWord_of_isDigit (numeral.2 c inside)

private theorem respellAll_found (remembers : progress.Remembers)
    (lettered : ∀ group ∈ progress.found, isNumeral group = false)
    (same : gaps (progress.scan memory).expression = gaps progress.expression) :
    (∀ group ∈ progress.found, (progress.scan memory).supply.isAllocated group = true) ∧
        (progress.scan memory).expression = progress.expression ∨
      ∃ run ∈ runs progress.expression, progress.supply.isLoose run = true ∧
        (progress.scan memory).supply.isLoose (progress.respellAll memory progress.found run) = false ∧
        progress.respellAll memory progress.found run ≠ run := by
  rw [expression_scan] at same ⊢
  exact respellAll_moves remembers long_of_found lettered
    (fun group member => ⟨SumGroup.infix_of_mem_findAll (List.mem_eraseDups.mp member), mem_runs_of_found member⟩)
    same

theorem gaps_scan_le (remembers : progress.Remembers) :
    gaps (progress.scan memory).expression ≤ gaps progress.expression := by
  rw [expression_scan]
  exact gaps_respellAll_le remembers present_of_found _

theorem runs_scan (remembers : progress.Remembers)
    (same : gaps (progress.scan memory).expression = gaps progress.expression) :
    runs (progress.scan memory).expression =
      (runs progress.expression).map (progress.respellAll memory progress.found) := by
  rw [expression_scan] at same ⊢
  exact runs_respellAll remembers present_of_found same

theorem isNumeral_of_respellAll (remembers : progress.Remembers) {run : Text}
    (numeral : isNumeral (progress.respellAll memory progress.found run) = true) : isNumeral run = true := by
  rwa [respellAll_of_isNumeral remembers present_of_found numeral] at numeral

/-- A numeral that is found is exchanged, and no scan puts in a numeral. -/
theorem numerals_scan_lt (remembers : progress.Remembers)
    (same : gaps (progress.scan memory).expression = gaps progress.expression) {group : Text}
    (member : group ∈ progress.found) (numeral : isNumeral group = true) :
    (progress.scan memory).numerals < progress.numerals := by
  rw [numerals, numerals, runs_scan remembers same]
  have kept : ∀ run ∈ runs progress.expression,
      isNumeral (progress.respellAll memory progress.found run) = true → isNumeral run = true :=
    fun run _ => isNumeral_of_respellAll remembers
  apply countP_map_lt kept (mem_runs_of_isNumeral member numeral) numeral
  cases still : isNumeral (progress.respellAll memory progress.found group) with
  | false => rfl
  | true =>
    have fixed := respellAll_of_isNumeral remembers present_of_found still
    exact False.elim (respellAll_ne_of_isNumeral remembers present_of_found member numeral group fixed)

theorem numerals_scan_le (remembers : progress.Remembers)
    (same : gaps (progress.scan memory).expression = gaps progress.expression) :
    (progress.scan memory).numerals ≤ progress.numerals := by
  rw [numerals, numerals, runs_scan remembers same]
  exact countP_map_le fun run _ => isNumeral_of_respellAll remembers

/-- Without a numeral among the groups a change settles some loose run, and no other run gets
loose. -/
theorem looseRuns_scan_lt (remembers : progress.Remembers)
    (same : gaps (progress.scan memory).expression = gaps progress.expression)
    (lettered : ∀ group ∈ progress.found, isNumeral group = false)
    (changed : (progress.scan memory).expression ≠ progress.expression) :
    (progress.scan memory).looseRuns < progress.looseRuns := by
  rw [looseRuns, looseRuns, runs_scan remembers same]
  rcases respellAll_found remembers lettered same with ⟨_, unchanged⟩ | ⟨run, member, loose, settled, _⟩
  · exact False.elim (changed unchanged)
  · apply countP_map_lt _ member loose settled
    intro other _ stillLoose
    cases before : progress.supply.isLoose other with
    | true => rfl
    | false =>
      rw [respellAll_of_not_isLoose long_of_found lettered before] at stillLoose
      rw [not_isLoose_mono before position_scan_le] at stillLoose
      cases stillLoose

/-- Each scan that changes the text lowers the number of gaps, or keeps it and lowers the number of
numerals, or keeps both and leaves fewer loose runs. -/
theorem scan_lowers (remembers : progress.Remembers)
    (changed : (progress.scan memory).expression ≠ progress.expression) :
    gaps (progress.scan memory).expression < gaps progress.expression ∨
      gaps (progress.scan memory).expression = gaps progress.expression ∧
        ((progress.scan memory).numerals < progress.numerals ∨
          (progress.scan memory).numerals ≤ progress.numerals ∧
            (progress.scan memory).looseRuns < progress.looseRuns) := by
  by_cases same : gaps (progress.scan memory).expression = gaps progress.expression
  · apply Or.inr
    apply And.intro same
    by_cases numeral : ∃ group ∈ progress.found, isNumeral group = true
    · obtain ⟨group, member, numeral⟩ := numeral
      exact Or.inl (numerals_scan_lt remembers same member numeral)
    · have lettered : ∀ group ∈ progress.found, isNumeral group = false := fun group member => by
        simpa using fun found => numeral ⟨group, member, found⟩
      exact Or.inr ⟨numerals_scan_le remembers same, looseRuns_scan_lt remembers same lettered changed⟩
  · exact Or.inl (Nat.lt_of_le_of_ne (gaps_scan_le remembers) same)

/-- A scan that changes nothing found names in use only. -/
theorem isAllocated_of_unchanged (remembers : progress.Remembers)
    (unchanged : (progress.scan memory).expression = progress.expression) :
    ∀ group ∈ progress.found, (progress.scan memory).supply.isAllocated group = true := by
  have same := congrArg gaps unchanged
  have fixed : ∀ run ∈ runs progress.expression, progress.respellAll memory progress.found run = run := by
    have mapped := runs_scan remembers same
    rw [unchanged] at mapped
    exact fixed_of_map_eq mapped.symm
  have lettered : ∀ group ∈ progress.found, isNumeral group = false := by
    intro group member
    cases numeral : isNumeral group with
    | false => rfl
    | true =>
      have still := fixed group (mem_runs_of_isNumeral member numeral)
      exact False.elim (respellAll_ne_of_isNumeral remembers present_of_found member numeral group still)
  rcases respellAll_found remembers lettered same with ⟨names, _⟩ | ⟨run, member, _, _, moved⟩
  · exact names
  · exact False.elim (moved (fixed run member))

/-- The loop of the phase without a limit: scans until no `+` is left or a scan changes nothing. -/
inductive Settles (memory : GroupMemory) : Nat → SumProgress → SumProgress → Prop where
  | reduced {progress : SumProgress} : '+' ∉ progress.expression → Settles memory 0 progress progress
  | stalled {progress : SumProgress} : '+' ∈ progress.expression →
      (progress.scan memory).expression = progress.expression →
      Settles memory 1 progress (progress.scan memory)
  | step {scans : Nat} {progress last : SumProgress} : '+' ∈ progress.expression →
      (progress.scan memory).expression ≠ progress.expression →
      Settles memory scans (progress.scan memory) last → Settles memory (scans + 1) progress last

/-- The three measures as one number. The base exceeds the second and the third of them. -/
def rank (base : Nat) (progress : SumProgress) : Nat :=
  (gaps progress.expression * base + progress.numerals) * base + progress.looseRuns

private theorem digits_lt {base high low higher lower : Nat} (less : high < higher) (small : low < base) :
    high * base + low < higher * base + lower := by
  have scaled := Nat.mul_le_mul_right base less
  rw [Nat.succ_mul] at scaled
  omega

theorem numerals_le (progress : SumProgress) : progress.numerals ≤ gaps progress.expression + 1 := by
  rw [← length_runs]
  exact List.countP_le_length

theorem looseRuns_le (progress : SumProgress) : progress.looseRuns ≤ gaps progress.expression + 1 := by
  rw [← length_runs]
  exact List.countP_le_length

theorem rank_scan_lt {base : Nat} (wide : gaps progress.expression + 2 ≤ base) (remembers : progress.Remembers)
    (changed : (progress.scan memory).expression ≠ progress.expression) :
    rank base (progress.scan memory) < rank base progress := by
  have fewer : gaps (progress.scan memory).expression ≤ gaps progress.expression := gaps_scan_le remembers
  have numeralBound : (progress.scan memory).numerals < base := by
    have := numerals_le (progress.scan memory)
    omega
  have looseBound : (progress.scan memory).looseRuns < base := by
    have := looseRuns_le (progress.scan memory)
    omega
  unfold rank
  rcases scan_lowers remembers changed with less | ⟨same, less | ⟨atMost, less⟩⟩
  · exact digits_lt (digits_lt less numeralBound) looseBound
  · rw [same]
    exact digits_lt (Nat.add_lt_add_left less _) looseBound
  · have scaled := Nat.mul_le_mul_right base (Nat.add_le_add_left atMost (gaps progress.expression * base))
    rw [same]
    omega

theorem rank_lt_cube {base : Nat} (wide : gaps progress.expression + 2 ≤ base) :
    rank base progress < base * base * base := by
  have numeralBound : progress.numerals < base := by
    have := numerals_le progress
    omega
  have looseBound : progress.looseRuns < base := by
    have := looseRuns_le progress
    omega
  have narrow : gaps progress.expression < base := by omega
  have inner : gaps progress.expression * base + progress.numerals < base * base + 0 := digits_lt narrow numeralBound
  have outer : rank base progress < (base * base + 0) * base + 0 := digits_lt inner looseBound
  exact outer

/-- The limited loop is the loop itself when the limit exceeds the rank. -/
theorem settles_of_rank_lt {base rounds : Nat} (wide : gaps progress.expression + 2 ≤ base)
    (remembers : progress.Remembers) (enough : rank base progress < rounds) :
    ∃ scans ≤ rounds, Settles memory scans progress (progress.settle memory rounds) := by
  induction rounds generalizing progress with
  | zero => omega
  | succ rounds ih =>
    rw [settle]
    split
    next present =>
      by_cases unchanged : (progress.scan memory).expression = progress.expression
      · simp only [unchanged, ↓reduceIte]
        exact ⟨1, by omega, .stalled present unchanged⟩
      · have less := rank_scan_lt wide remembers unchanged
        have narrow : gaps (progress.scan memory).expression ≤ gaps progress.expression :=
          gaps_scan_le remembers
        have kept : (progress.scan memory).Remembers := remembers.scan
        obtain ⟨scans, bound, rest⟩ := ih (Nat.le_trans (Nat.add_le_add_right narrow 2) wide) kept (by omega)
        simp only [unchanged, ↓reduceIte]
        exact ⟨scans + 1, by omega, .step present unchanged rest⟩
    next absent => exact ⟨0, by omega, .reduced absent⟩

theorem Settles.irreducible {scans : Nat} (settles : Settles memory scans progress last)
    (remembers : progress.Remembers) (left : '+' ∈ last.expression) : Irreducible last.expression := by
  induction settles with
  | reduced absent => exact False.elim (absent left)
  | @stalled progress _ unchanged =>
    rw [unchanged]
    apply irreducible_of_not_ready
    intro place
    apply SumGroup.not_ready_of_isWordly
    intro piece member
    exact Supply.isWord_of_isAllocated
      (isAllocated_of_unchanged remembers unchanged piece (List.mem_eraseDups.mpr member))
  | step _ _ _ ih => exact ih remembers.scan left

section Expressions

variable {holds : Text → Prop} (exchanged : ∀ {target replacement text : Text}, target ≠ [] → IsWordly replacement →
  replacement ≠ [] → holds text → holds (replaceAll target replacement text))
include exchanged

theorem respellAll_invariant {groups : List Text} {text : Text} (remembers : progress.Remembers)
    (present : ∀ group ∈ groups, group ≠ []) (start : holds text) : holds (progress.respellAll memory groups text) := by
  induction groups generalizing progress text with
  | nil => exact start
  | cons group groups ih =>
    have kept : (progress.visit memory group).Remembers := remembers.visit
    apply ih kept fun other member => present other (by simp [member])
    unfold respell
    cases found : progress.replacement? group with
    | none => exact start
    | some name =>
      obtain ⟨position, rfl⟩ := exists_nameAt_of_replacement? remembers found
      exact exchanged (present group (by simp)) (isWordly_of_replacement? remembers found)
        (Symbol.nameAt_ne_nil position) start

theorem Settles.expression_invariant {scans : Nat} (settles : Settles memory scans progress last)
    (remembers : progress.Remembers) (start : holds progress.expression) : holds last.expression := by
  have scan : ∀ {progress : SumProgress}, progress.Remembers → holds progress.expression →
      holds (progress.scan memory).expression := by
    intro progress remembers start
    rw [expression_scan]
    exact respellAll_invariant exchanged remembers present_of_found start
  induction settles with
  | reduced _ => exact start
  | stalled _ _ => exact scan remembers start
  | step _ _ _ ih => exact ih remembers.scan (scan remembers start)

end Expressions

theorem settle_succ (left : '+' ∈ progress.expression) (rounds : Nat) :
    progress.settle memory (rounds + 1) =
      if (progress.scan memory).expression = progress.expression then progress.scan memory
      else (progress.scan memory).settle memory rounds := by
  rw [settle, if_pos left]

theorem position_settle_le (memory : GroupMemory) (rounds : Nat) (progress : SumProgress) :
    progress.supply.position ≤ (progress.settle memory rounds).supply.position := by
  induction rounds generalizing progress with
  | zero => exact Nat.le_refl _
  | succ rounds ih =>
    by_cases left : '+' ∈ progress.expression
    · rw [settle_succ left]
      split
      · exact position_scan_le
      · exact Nat.le_trans position_scan_le (ih _)
    · have same : progress.settle memory (rounds + 1) = progress := if_neg left
      exact Nat.le_of_eq (congrArg (·.supply.position) same.symm)

theorem position_scan_le_settle (left : '+' ∈ progress.expression) (rounds : Nat) :
    (progress.scan memory).supply.position ≤ (progress.settle memory (rounds + 1)).supply.position := by
  rw [settle_succ left]
  split
  · exact Nat.le_refl _
  · exact position_settle_le _ _ _

end SumProgress

theorem SumProgress.settles_initial (memory : GroupMemory) (expression : Text) (supply : Supply) :
    ∃ scans ≤ roundLimit expression, Settles memory scans (initial expression supply)
      ((initial expression supply).settle memory (roundLimit expression)) := by
  have wide : gaps (initial expression supply).expression + 2 ≤ gaps expression + 2 := Nat.le_refl _
  exact settles_of_rank_lt wide (remembers_initial expression supply) (rank_lt_cube wide)

/-- The sum phase ends after finitely many scans, with a text without `+` or with an irreducible
text. -/
theorem reduceSums_settles (memory : GroupMemory) (expression : Text) (supply : Supply) :
    ∃ scans ≤ SumProgress.roundLimit expression, ∃ last,
      SumProgress.Settles memory scans (.initial expression supply) last ∧
        (reduceSums memory expression supply = .ok ⟨last.expression, last.supply, last.productions⟩ ∧
            '+' ∉ last.expression ∨
          reduceSums memory expression supply = .error ⟨last.expression⟩ ∧ '+' ∈ last.expression ∧
            Irreducible last.expression) := by
  obtain ⟨scans, bound, settles⟩ := SumProgress.settles_initial memory expression supply
  refine ⟨scans, bound, _, settles, ?_⟩
  by_cases left : '+' ∈ ((SumProgress.initial expression supply).settle memory
      (SumProgress.roundLimit expression)).expression
  · have remembers := SumProgress.remembers_initial expression supply
    exact Or.inr ⟨if_pos left, left, settles.irreducible remembers left⟩
  · exact Or.inl ⟨if_neg left, left⟩

/-- How many symbols the sum phase hands out, those before a stall included. -/
def handedOut (memory : GroupMemory) (expression : Text) (supply : Supply) : Nat :=
  ((SumProgress.initial expression supply).settle memory (SumProgress.roundLimit expression)).supply.position -
    supply.position

theorem position_add_handedOut (memory : GroupMemory) (expression : Text) (supply : Supply) :
    supply.position + handedOut memory expression supply =
      ((SumProgress.initial expression supply).settle memory
        (SumProgress.roundLimit expression)).supply.position :=
  Nat.add_sub_cancel' (SumProgress.position_settle_le memory _ (.initial expression supply))

theorem supply_of_ok {memory : GroupMemory} {expression : Text} {supply : Supply} {sums : Reduction}
    (answer : reduceSums memory expression supply = .ok sums) :
    sums.supply = ((SumProgress.initial expression supply).settle memory
      (SumProgress.roundLimit expression)).supply := by
  unfold reduceSums at answer
  dsimp only at answer
  split at answer
  · cases answer
  · cases answer
    rfl

end SumStar
