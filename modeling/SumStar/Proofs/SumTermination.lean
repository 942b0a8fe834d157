import SumStar.Proofs.SumScans

/-! The scans of the sum phase come to an end, and what is left behind cannot be reduced. A scan
that changes the text takes a gap away; or else it takes away a run of digits; or else it leaves
fewer long runs that are not yet names in use. No other measure will do: a scan may make the text
longer, may find no `+` at all, and may write into a name put in before. -/

namespace SumStar

open Text

/-- A run of at least two digits. -/
def isNumeral (run : Text) : Bool :=
  decide (2 ≤ run.length) && run.all Char.isDigit

/-- A run that a scan would exchange: it is long enough and no name in use. -/
def Supply.isLoose (supply : Supply) (run : Text) : Bool :=
  decide (2 ≤ run.length) && !supply.isAllocated run

theorem isLoose_of_isNumeral {supply : Supply} {run : Text} (numeral : isNumeral run = true) :
    supply.isLoose run = true := by
  simp only [isNumeral, Supply.isLoose, Bool.and_eq_true, decide_eq_true_eq, List.all_eq_true] at numeral ⊢
  refine ⟨numeral.1, ?_⟩
  cases allocated : supply.isAllocated run with
  | false => rfl
  | true =>
    obtain ⟨position, read, _⟩ := Supply.isAllocated_iff.mp allocated
    obtain ⟨c, suffix, slot, round, rfl, found, _⟩ := Symbol.exists_of_position? read
    have letter := Symbol.not_isDigit_of_mem_letters (List.isSome_idxOf?.mp (by rw [found]; rfl))
    rw [numeral.2 c (by simp)] at letter
    cases letter

theorem not_isNumeral_replaceAll {target text : Text} (present : target ≠ []) (inside : target <:+: text)
    (position : Nat) : isNumeral (replaceAll target (Symbol.nameAt position) text) = false := by
  have put : Symbol.nameAt position <:+: replaceAll target (Symbol.nameAt position) text :=
    infix_replaceAll present inside
  have letter := Symbol.not_isDigit_of_mem_letters (Symbol.letter_mem position)
  cases numeral : isNumeral (replaceAll target (Symbol.nameAt position) text) with
  | false => rfl
  | true =>
    simp only [isNumeral, Bool.and_eq_true, List.all_eq_true] at numeral
    rw [numeral.2 _ (put.subset List.mem_cons_self)] at letter
    cases letter

theorem countP_map_le {source target : Text → Bool} {change : Text → Text} {runs : List Text}
    (kept : ∀ run ∈ runs, target (change run) = true → source run = true) :
    (runs.map change).countP target ≤ runs.countP source := by
  induction runs with
  | nil => exact Nat.le_refl _
  | cons run runs ih =>
    have later := ih fun other member => kept other (by simp [member])
    have here := kept run (by simp)
    rw [List.map_cons, List.countP_cons, List.countP_cons]
    split
    next found =>
      rw [if_pos (here found)]
      omega
    next => omega

theorem countP_map_lt {source target : Text → Bool} {change : Text → Text} {runs : List Text}
    (kept : ∀ run ∈ runs, target (change run) = true → source run = true) {run : Text} (member : run ∈ runs)
    (counted : source run = true) (lost : target (change run) = false) :
    (runs.map change).countP target < runs.countP source := by
  obtain ⟨before, after, rfl⟩ := List.append_of_mem member
  have left := countP_map_le fun run member => kept run (List.mem_append_left _ member)
  have right := countP_map_le fun other at_ => kept other (List.mem_append_right _ (List.mem_cons_of_mem _ at_))
  rw [List.map_append, List.map_cons, List.countP_append, List.countP_append, List.countP_cons,
    List.countP_cons, if_pos counted, lost, if_neg Bool.false_ne_true]
  omega

namespace SumProgress

variable {memory : GroupMemory} {progress : SumProgress} {group name run text : Text} {groups : List Text}

theorem respell_of_isNumeral (remembers : progress.Remembers) (present : group ≠ [])
    (numeral : isNumeral (progress.respell group text) = true) : progress.respell group text = text := by
  unfold respell at numeral ⊢
  cases found : progress.replacement? group with
  | none => rfl
  | some name =>
    obtain ⟨position, rfl⟩ := exists_nameAt_of_replacement? remembers found
    by_cases inside : group <:+: text
    · simp [found, not_isNumeral_replaceAll present inside position] at numeral
    · exact replaceAll_of_absent present inside

/-- A numeral that is visited is exchanged everywhere. -/
theorem respell_ne_of_isNumeral (remembers : progress.Remembers) (numeral : isNumeral group = true)
    (text : Text) : progress.respell group text ≠ group := by
  have present : group ≠ [] := by
    intro empty
    simp [empty, isNumeral] at numeral
  have loose : progress.supply.isLoose group = true := isLoose_of_isNumeral numeral
  simp only [Supply.isLoose, Bool.and_eq_true, Bool.not_eq_true'] at loose
  obtain ⟨name, found⟩ := replacement?_of_not_isAllocated loose.2
  obtain ⟨position, rfl⟩ := exists_nameAt_of_replacement? remembers found
  simp only [respell, found]
  intro same
  by_cases inside : group <:+: text
  · have lettered := not_isNumeral_replaceAll present inside position
    rw [same, numeral] at lettered
    cases lettered
  · rw [replaceAll_of_absent present inside] at same
    exact inside (same ▸ List.infix_refl _)

/-- What is short or a name in use stays as it is when no numeral is exchanged. -/
theorem respell_of_not_isLoose (long : 2 ≤ group.length) (lettered : isNumeral group = false)
    (settled : progress.supply.isLoose run = false) : progress.respell group run = run := by
  unfold respell
  cases found : progress.replacement? group with
  | none => rfl
  | some name =>
    have fresh := not_isAllocated_of_replacement? found
    have present : group ≠ [] := by
      intro empty
      simp [empty] at long
    apply replaceAll_of_absent present
    intro inside
    simp only [Supply.isLoose, Bool.and_eq_false_iff, decide_eq_false_iff_not, Bool.not_eq_false'] at settled
    rcases settled with short | allocated
    · exact short (Nat.le_trans long inside.length_le)
    · have digits : ¬ group.all Char.isDigit = true := by
        intro digits
        simp [isNumeral, long, digits] at lettered
      have := Supply.isAllocated_of_infix allocated inside long digits
      simp [fresh] at this

theorem not_isLoose_mono {supply later : Supply} (settled : supply.isLoose run = false)
    (grown : supply.position ≤ later.position) : later.isLoose run = false := by
  simp only [Supply.isLoose, Bool.and_eq_false_iff, Bool.not_eq_false'] at settled ⊢
  exact settled.imp_right fun allocated => Supply.isAllocated_mono allocated grown

/-! The three facts carry over from a visit to any number of visits. -/

theorem respellAll_of_isNumeral (remembers : progress.Remembers) (present : ∀ group ∈ groups, group ≠ [])
    (numeral : isNumeral (progress.respellAll memory groups text) = true) :
    progress.respellAll memory groups text = text := by
  induction groups generalizing progress text with
  | nil => rfl
  | cons group groups ih =>
    have later := ih (remembers.visit) (fun other member => present other (by simp [member])) numeral
    rw [respellAll] at numeral ⊢
    rw [later] at numeral ⊢
    exact respell_of_isNumeral remembers (present group (by simp)) numeral

theorem respellAll_ne_of_isNumeral (remembers : progress.Remembers) (present : ∀ group ∈ groups, group ≠ [])
    (member : group ∈ groups) (numeral : isNumeral group = true) (text : Text) :
    progress.respellAll memory groups text ≠ group := by
  induction groups generalizing progress text with
  | nil => cases member
  | cons first groups ih =>
    have rest : ∀ group ∈ groups, group ≠ [] := fun other member => present other (by simp [member])
    rw [respellAll]
    rcases List.mem_cons.mp member with rfl | later
    · intro same
      have kept : (progress.visit memory group).Remembers := remembers.visit
      rw [respellAll_of_isNumeral kept rest (by rw [same]; exact numeral)] at same
      exact respell_ne_of_isNumeral remembers numeral text same
    · exact ih remembers.visit rest later (progress.respell first text)

theorem respellAll_of_not_isLoose (long : ∀ group ∈ groups, 2 ≤ group.length)
    (lettered : ∀ group ∈ groups, isNumeral group = false) (settled : progress.supply.isLoose run = false) :
    progress.respellAll memory groups run = run := by
  induction groups generalizing progress with
  | nil => rfl
  | cons group groups ih =>
    rw [respellAll, respell_of_not_isLoose (long group (by simp)) (lettered group (by simp)) settled]
    exact ih (fun other member => long other (by simp [member]))
      (fun other member => lettered other (by simp [member])) (not_isLoose_mono settled position_visit_le)

theorem isLoose_of_later {supply later : Supply} (loose : later.isLoose run = true)
    (grown : supply.position ≤ later.position) : supply.isLoose run = true := by
  cases settled : supply.isLoose run with
  | true => rfl
  | false =>
    rw [not_isLoose_mono settled grown] at loose
    cases loose

theorem isWordly_of_gaps_respell (remembers : progress.Remembers) (present : group ≠ []) (inside : group <:+: text)
    (found : progress.replacement? group = some name) (same : gaps (progress.respell group text) = gaps text) :
    IsWordly group := by
  by_cases wordly : IsWordly group
  · exact wordly
  · have fewer := gaps_replaceAll_lt present (isWordly_of_replacement? remembers found) wordly inside
    simp only [respell, found] at same
    omega

theorem isAllocated_visit (memory : GroupMemory) (remembers : progress.Remembers)
    (found : progress.replacement? group = some name) :
    (progress.visit memory group).supply.isAllocated name = true := by
  obtain ⟨position, below, rfl⟩ := exists_of_replacement? memory remembers found
  exact Supply.isAllocated_nameAt below

theorem respell_self (present : group ≠ []) (found : progress.replacement? group = some name) :
    progress.respell group group = name := by
  have whole := replaceAll_append_of_ne_nil present name []
  rw [List.append_nil, replaceAll_nil, List.append_nil] at whole
  simp only [respell, found, whole]

theorem respellAll_self (memory : GroupMemory) (remembers : progress.Remembers) (present : group ≠ [])
    (long : ∀ group ∈ groups, 2 ≤ group.length) (lettered : ∀ group ∈ groups, isNumeral group = false)
    (found : progress.replacement? group = some name) :
    progress.respellAll memory (group :: groups) group = name ∧
      ((group :: groups).foldl (visit memory) progress).supply.isLoose name = false := by
  have exchanged : progress.respell group group = name := respell_self present found
  have settled : (progress.visit memory group).supply.isLoose name = false := by
    simp [Supply.isLoose, isAllocated_visit memory remembers found]
  constructor
  · rw [respellAll, exchanged, respellAll_of_not_isLoose long lettered settled]
  · exact not_isLoose_mono settled (position_foldl_le _ groups)

theorem isAllocated_of_idle (memory : GroupMemory) (remembers : progress.Remembers) (present : group ≠ [])
    (idle : progress.respell group group = group) :
    (progress.visit memory group).supply.isAllocated group = true := by
  cases found : progress.replacement? group with
  | none => exact Supply.isAllocated_mono (isAllocated_of_replacement? found) position_visit_le
  | some name =>
    have named := isAllocated_visit memory remembers found
    rwa [← respell_self present found, idle] at named

/-- Visits that take no gap away and do not move any loose run pass over names in use only. -/
theorem respellAll_moves (remembers : progress.Remembers) (long : ∀ group ∈ groups, 2 ≤ group.length)
    (lettered : ∀ group ∈ groups, isNumeral group = false)
    (stands : ∀ group ∈ groups, group <:+: text ∧ (IsWordly group → group ∈ runs text))
    (same : gaps (progress.respellAll memory groups text) = gaps text) :
    (∀ group ∈ groups, (groups.foldl (visit memory) progress).supply.isAllocated group = true) ∧
        progress.respellAll memory groups text = text ∨
      ∃ run ∈ runs text, progress.supply.isLoose run = true ∧
        (groups.foldl (visit memory) progress).supply.isLoose (progress.respellAll memory groups run) = false ∧
        progress.respellAll memory groups run ≠ run := by
  induction groups generalizing progress with
  | nil => exact Or.inl ⟨by simp, rfl⟩
  | cons group groups ih =>
    have present : ∀ other ∈ group :: groups, other ≠ [] := by
      intro other member empty
      simpa [empty] using long other member
    have filled := present group (by simp)
    have kept : (progress.visit memory group).Remembers := remembers.visit
    have restLong : ∀ group ∈ groups, 2 ≤ group.length := fun other member => long other (by simp [member])
    have restLettered : ∀ group ∈ groups, isNumeral group = false := fun other member =>
      lettered other (by simp [member])
    have rest := ih kept restLong restLettered fun other member => stands other (by simp [member])
    have stay : (progress.visit memory group).supply.position ≤
        ((group :: groups).foldl (visit memory) progress).supply.position := position_foldl_le _ groups
    have later : gaps (progress.respellAll memory (group :: groups) text) ≤ gaps (progress.respell group text) :=
      gaps_respellAll_le kept (fun other member => present other (by simp [member])) _
    have first := gaps_respell_le remembers filled text
    by_cases idle : ∀ text, progress.respell group text = text
    · have allocated := isAllocated_of_idle memory remembers filled (idle group)
      rw [respellAll, idle] at same
      simp only [respellAll, idle]
      rcases rest same with ⟨names, fixed⟩ | ⟨run, member, loose, moved⟩
      · refine Or.inl ⟨?_, fixed⟩
        intro other member
        rcases List.mem_cons.mp member with rfl | behind
        · exact Supply.isAllocated_mono allocated stay
        · exact names other behind
      · exact Or.inr ⟨run, member, isLoose_of_later loose position_visit_le, moved⟩
    · cases found : progress.replacement? group with
      | none => exact False.elim (idle fun text => by simp [respell, found])
      | some name =>
        have differ : name ≠ group := by
          intro own
          exact idle fun text => by simp only [respell, found, own, replaceAll_self filled]
        have wordly := isWordly_of_gaps_respell remembers filled (stands group (by simp)).1 found (by omega)
        obtain ⟨exchanged, settled⟩ := respellAll_self memory remembers filled restLong restLettered found
        refine Or.inr ⟨group, (stands group (by simp)).2 wordly, ?_, ?_, ?_⟩
        · simp [Supply.isLoose, long group (by simp), not_isAllocated_of_replacement? found]
        · rw [exchanged]
          exact settled
        · rw [exchanged]
          exact differ

end SumProgress
end SumStar
