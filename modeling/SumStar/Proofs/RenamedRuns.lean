import SumStar.Proofs.Repetitions
import SumStar.Proofs.SumOutcome
import SumStar.Proofs.TemplateGroups

/-! Runs of the sum phase that start from different positions. The states of a run are written from
templates; a visit, a scan and the loop act on the templates before the names are put in. What a
name looks like matters in two places only: whether it is a single character, on which the search
depends, and whether it begins another name, on which the exchanges depend. -/

namespace SumStar

open Text Template

/-- A state of the sum phase with the names left open. -/
structure SumTemplate where
  expression : Template
  turn : Nat
  productions : List (Nat × Template)
  known : List (Template × Nat)

namespace SumTemplate

/-- The state in the run that starts from a position. -/
def progress (start : Nat) (state : SumTemplate) : SumProgress where
  expression := spell start state.expression
  supply := ⟨start + state.turn⟩
  productions := state.productions.map fun rule => ⟨.nth (start + rule.1), spell start rule.2⟩
  known := state.known.map fun entry => (spell start entry.1, .nth (start + entry.2))

/-- The answer of the phase if the run that starts from a position ends in the state. -/
def answer (start : Nat) (state : SumTemplate) : Except Stalled Reduction :=
  let last := state.progress start
  if Glyph.plain '+' ∈ state.expression then
    .error ⟨last.expression⟩
  else
    .ok ⟨last.expression, last.supply, last.productions⟩

/-- Only symbols that were handed out occur. -/
structure IsBelow (state : SumTemplate) : Prop where
  expression : state.expression.IsBelow state.turn
  productions : ∀ rule ∈ state.productions, rule.1 < state.turn ∧ rule.2.IsBelow state.turn
  known : ∀ entry ∈ state.known, entry.2 < state.turn ∧ entry.1.IsBelow state.turn

variable {memory : GroupMemory} {state : SumTemplate} {group : Template} {groups : List Template}
  {first second start count rounds : Nat}

private theorem lookup_map {known : List (Template × Nat)} (apart : Apart start count)
    (below : ∀ entry ∈ known, entry.1.IsBelow count) (inside : group.IsBelow count) :
    (known.map fun entry => (spell start entry.1, Symbol.nth (start + entry.2))).lookup (spell start group) =
      (known.lookup group).map fun turn => .nth (start + turn) := by
  induction known with
  | nil => rfl
  | cons entry known ih =>
    obtain ⟨earlier, turn⟩ := entry
    rw [List.map_cons, List.lookup_cons, List.lookup_cons]
    by_cases same : group = earlier
    · rw [beq_iff_eq.mpr same, beq_iff_eq.mpr (congrArg (spell start) same)]
      rfl
    · have other : spell start group ≠ spell start earlier := fun both =>
        same (spell_injective apart inside (below _ List.mem_cons_self) both)
      rw [beq_eq_false_iff_ne.mpr same, beq_eq_false_iff_ne.mpr other]
      exact ih fun entry member => below entry (List.mem_cons_of_mem _ member)

private theorem mem_of_lookup_turn {known : List (Template × Nat)} {turn : Nat} (found : known.lookup group = some turn) :
    (group, turn) ∈ known := by
  obtain ⟨before, after, rfl, _⟩ := List.lookup_eq_some_iff.mp found
  simp

/-- The state after a group got the next symbol. -/
def introduce (memory : GroupMemory) (state : SumTemplate) (group : Template) (bodies : List Template)
    (expression : Template) : SumTemplate where
  expression := expression
  turn := state.turn + 1
  productions := state.productions ++ bodies.map fun body => (state.turn, body)
  known :=
    match memory with
    | .scan => state.known
    | .run => (group, state.turn) :: state.known

theorem IsBelow.introduce (below : state.IsBelow) (memory : GroupMemory) {bodies : List Template} {expression : Template}
    (inside : group.IsBelow state.turn) (pieces : ∀ body ∈ bodies, body ⊆ group)
    (changed : ∀ glyph ∈ expression, glyph ∈ [.symbol state.turn] ∨ glyph ∈ state.expression) :
    (state.introduce memory group bodies expression).IsBelow := by
  have grown : state.turn ≤ state.turn + 1 := Nat.le_succ _
  have known : ∀ entry ∈ state.known, entry.2 < state.turn + 1 ∧ entry.1.IsBelow (state.turn + 1) :=
    fun entry member => ⟨Nat.lt_succ_of_lt (below.known entry member).1, (below.known entry member).2.mono grown⟩
  constructor
  · intro glyph member
    rcases changed glyph member with new | old
    · rw [List.mem_singleton.mp new]
      exact Nat.lt_succ_self _
    · exact below.expression.mono grown glyph old
  · intro rule member
    rcases List.mem_append.mp member with old | new
    · exact ⟨Nat.lt_succ_of_lt (below.productions rule old).1, (below.productions rule old).2.mono grown⟩
    · obtain ⟨body, piece, rfl⟩ := List.mem_map.mp new
      exact ⟨Nat.lt_succ_self _, fun glyph part => inside.mono grown glyph (pieces body piece part)⟩
  · cases memory with
    | scan => exact known
    | run => exact List.forall_mem_cons.mpr ⟨⟨Nat.lt_succ_self _, inside.mono grown⟩, known⟩

theorem introduce_progress (memory : GroupMemory) {bodies : List Template} {expression : Template}
    (written : SumGroup.alternatives (spell start group) = bodies.map (spell start))
    (exchanged : replaceAll (spell start group) (Symbol.nameAt (start + state.turn)) (spell start state.expression) =
      spell start expression) :
    (state.progress start).introduce memory (spell start group) =
      (state.introduce memory group bodies expression).progress start := by
  rw [SumProgress.mk.injEq]
  refine ⟨exchanged, rfl, ?_, ?_⟩
  · have new : (SumGroup.alternatives (spell start group)).map (Production.mk (.nth (start + state.turn))) =
        (bodies.map fun body => (state.turn, body)).map fun rule => ⟨.nth (start + rule.1), spell start rule.2⟩ := by
      rw [written, List.map_map, List.map_map]
      rfl
    exact (congrArg (_ ++ ·) new).trans List.map_append.symm
  · cases memory with
    | scan => rfl
    | run => rfl

/-- A visit acts on templates. -/
theorem exists_visit (memory : GroupMemory) (below : state.IsBelow) (present : group ≠ [])
    (inside : group.IsBelow state.turn) :
    ∃ next : SumTemplate, next.IsBelow ∧ state.turn ≤ next.turn ∧
      ∀ start, Apart start state.turn → (state.progress start).visit memory (spell start group) = next.progress start := by
  by_cases used : ∃ earlier < state.turn, group = [.symbol earlier]
  · refine ⟨state, below, Nat.le_refl _, fun start _ => ?_⟩
    exact if_pos ((isAllocated_spell_iff inside).mpr used)
  · have fresh : ∀ start, ¬ (state.progress start).supply.isAllocated (spell start group) = true :=
      fun start allocated => used ((isAllocated_spell_iff inside).mp allocated)
    have remembered : ∀ start, Apart start state.turn → (state.progress start).known.lookup (spell start group) =
        (state.known.lookup group).map fun turn => .nth (start + turn) :=
      fun start apart => lookup_map apart (fun entry member => (below.known entry member).2) inside
    cases found : state.known.lookup group with
    | some earlier =>
      obtain ⟨handed, _⟩ := below.known _ (mem_of_lookup_turn found)
      obtain ⟨changed, glyphs, same⟩ := exists_replaceAll inside present below.expression [.symbol earlier]
      refine ⟨{ state with expression := changed }, ⟨?_, below.productions, below.known⟩, Nat.le_refl _, ?_⟩
      · intro glyph member
        rcases glyphs glyph member with new | old
        · exact List.mem_singleton.mp new ▸ handed
        · exact below.expression glyph old
      · intro start apart
        have exchanged := same start apart
        rw [spell_cons, spell_nil, List.append_nil] at exchanged
        rw [SumProgress.visit, if_neg (fresh start), remembered start apart, found]
        exact congrArg (fun text => { state.progress start with expression := text }) exchanged
    | none =>
      obtain ⟨bodies, pieces, written⟩ := exists_alternatives group
      obtain ⟨changed, glyphs, same⟩ := exists_replaceAll inside present below.expression [.symbol state.turn]
      refine ⟨state.introduce memory group bodies changed, below.introduce memory inside pieces glyphs,
        Nat.le_succ _, ?_⟩
      intro start apart
      have exchanged := same start apart
      rw [spell_cons, spell_nil, List.append_nil] at exchanged
      rw [SumProgress.visit, if_neg (fresh start), remembered start apart, found]
      exact introduce_progress memory (written start) exchanged

private theorem turn_le {position : Nat} (grown : (state.progress first).supply.position ≤ position)
    (fits : position ≤ first + count) : state.turn ≤ count :=
  Nat.le_of_add_le_add_left (Nat.le_trans grown fits)

/-- Visits act on templates. The run from the first position bounds the symbols handed out. -/
theorem exists_foldl (apart : Apart first count) (below : state.IsBelow)
    (inside : ∀ group ∈ groups, group ≠ [] ∧ group.IsBelow state.turn)
    (fits : ((groups.map (spell first)).foldl (SumProgress.visit memory) (state.progress first)).supply.position ≤
      first + count) :
    ∃ next : SumTemplate, next.IsBelow ∧ next.turn ≤ count ∧
      ∀ start, Apart start count →
        (groups.map (spell start)).foldl (SumProgress.visit memory) (state.progress start) = next.progress start := by
  have less : state.turn ≤ count := turn_le (SumProgress.position_foldl_le _ _) fits
  induction groups generalizing state with
  | nil => exact ⟨state, below, less, fun _ _ => rfl⟩
  | cons group groups ih =>
    obtain ⟨present, own⟩ := inside group (by simp)
    obtain ⟨next, kept, more, same⟩ := exists_visit memory below present own
    rw [List.map_cons, List.foldl_cons, same first (apart.mono less)] at fits
    have still : next.turn ≤ count := turn_le (SumProgress.position_foldl_le _ _) fits
    have later : ∀ group ∈ groups, group ≠ [] ∧ group.IsBelow next.turn := fun group member =>
      (inside group (by simp [member])).imp_right fun old => old.mono more
    obtain ⟨last, done, bound, all⟩ := ih kept later fits still
    refine ⟨last, done, bound, fun start apart => ?_⟩
    rw [List.map_cons, List.foldl_cons, same start (apart.mono less)]
    exact all start apart

/-- A scan visits the pieces of the template. -/
theorem exists_scan (alike : Alike first second count) (below : state.IsBelow)
    (fits : ((state.progress first).scan memory).supply.position ≤ first + count) :
    ∃ next : SumTemplate, next.IsBelow ∧ next.turn ≤ count ∧
      (state.progress first).scan memory = next.progress first ∧
        (state.progress second).scan memory = next.progress second := by
  have less : state.turn ≤ count := turn_le SumProgress.position_scan_le fits
  have fewer := alike.mono less
  obtain ⟨pieces, parts, one, other⟩ := fewer.exists_findAll below.expression
  have inside : ∀ piece ∈ pieces, piece ≠ [] ∧ piece.IsBelow state.turn := fun piece member =>
    (parts piece member).imp_right fun part glyph own => below.expression glyph (part own)
  have visited : ∀ {start}, Apart start state.turn →
      SumGroup.findAll (spell start state.expression) = pieces.map (spell start) →
      (state.progress start).scan memory =
        (pieces.eraseDups.map (spell start)).foldl (SumProgress.visit memory) (state.progress start) := by
    intro start apart found
    have injective : ∀ one ∈ pieces, ∀ other ∈ pieces, spell start one = spell start other → one = other :=
      fun one member other another => spell_injective apart (inside one member).2 (inside other another).2
    rw [← eraseDups_map injective, ← found]
    rfl
  rw [visited fewer.one one] at fits ⊢
  rw [visited fewer.other other]
  have once : ∀ piece ∈ pieces.eraseDups, piece ≠ [] ∧ piece.IsBelow state.turn := fun piece member =>
    inside piece (List.mem_eraseDups.mp member)
  obtain ⟨next, kept, bound, same⟩ := exists_foldl alike.one below once fits
  exact ⟨next, kept, bound, same first alike.one, same second alike.other⟩

theorem mem_progress_iff : '+' ∈ (state.progress start).expression ↔ Glyph.plain '+' ∈ state.expression :=
  mem_spell_iff isWord_plus

private theorem same_expression_iff {next : SumTemplate} (apart : Apart start count) (below : state.IsBelow)
    (less : state.turn ≤ count) (kept : next.IsBelow) (bound : next.turn ≤ count) :
    (next.progress start).expression = (state.progress start).expression ↔ next.expression = state.expression :=
  ⟨spell_injective apart (kept.expression.mono bound) (below.expression.mono less), congrArg (spell start)⟩

/-- The loop makes the same scans in both runs. -/
theorem exists_settle (alike : Alike first second count) (below : state.IsBelow)
    (fits : ((state.progress first).settle memory rounds).supply.position ≤ first + count) :
    ∃ last : SumTemplate, last.IsBelow ∧
      (state.progress first).settle memory rounds = last.progress first ∧
        (state.progress second).settle memory rounds = last.progress second := by
  induction rounds generalizing state with
  | zero => exact ⟨state, below, rfl, rfl⟩
  | succ rounds ih =>
    by_cases left : Glyph.plain '+' ∈ state.expression
    · have one : '+' ∈ (state.progress first).expression := mem_progress_iff.mpr left
      have other : '+' ∈ (state.progress second).expression := mem_progress_iff.mpr left
      have early := Nat.le_trans (SumProgress.position_scan_le_settle one rounds) fits
      have less : state.turn ≤ count := turn_le SumProgress.position_scan_le early
      obtain ⟨next, kept, bound, here, there⟩ := exists_scan alike below early
      rw [SumProgress.settle_succ one, here] at fits ⊢
      rw [SumProgress.settle_succ other, there]
      by_cases same : next.expression = state.expression
      · rw [if_pos ((same_expression_iff alike.one below less kept bound).mpr same),
          if_pos ((same_expression_iff alike.other below less kept bound).mpr same)]
        exact ⟨next, kept, rfl, rfl⟩
      · have changed := mt (same_expression_iff alike.one below less kept bound).mp same
        rw [if_neg changed] at fits ⊢
        rw [if_neg (mt (same_expression_iff alike.other below less kept bound).mp same)]
        exact ih kept fits
    · refine ⟨state, below, ?_, ?_⟩
      · rw [SumProgress.settle, if_neg (mt mem_progress_iff.mp left)]
      · rw [SumProgress.settle, if_neg (mt mem_progress_iff.mp left)]

/-- The state that both runs start from. -/
def initial (expression : Text) : SumTemplate :=
  ⟨expression.map .plain, 0, [], []⟩

theorem progress_initial (expression : Text) (start : Nat) :
    (initial expression).progress start = .initial expression ⟨start⟩ := by
  have written : spell start (expression.map .plain) = expression := by
    rw [spell, List.flatMap_map]
    exact List.flatMap_singleton' expression
  exact congrArg (SumProgress.mk · ⟨start⟩ [] []) written

theorem isBelow_initial {expression : Text} (plain : ∀ c ∈ expression, c.isUpper = false ∧ c.isDigit = false) :
    (initial expression).IsBelow := by
  refine ⟨?_, by simp [initial], by simp [initial]⟩
  intro glyph member
  obtain ⟨c, inside, rfl⟩ := List.mem_map.mp member
  exact plain c inside

theorem reduceSums_eq_answer {expression : Text}
    (ends : (SumProgress.initial expression ⟨start⟩).settle memory (SumProgress.roundLimit expression) =
      state.progress start) :
    reduceSums memory expression ⟨start⟩ = state.answer start := by
  rw [reduceSums, ends, answer]
  by_cases left : Glyph.plain '+' ∈ state.expression
  · rw [if_pos left]
    exact if_pos (mem_progress_iff.mpr left)
  · rw [if_neg left]
    exact if_neg (mt mem_progress_iff.mp left)

theorem handedOut_eq_turn {expression : Text}
    (ends : (SumProgress.initial expression ⟨start⟩).settle memory (SumProgress.roundLimit expression) =
      state.progress start) :
    handedOut memory expression ⟨start⟩ = state.turn := by
  rw [handedOut, ends]
  exact Nat.add_sub_cancel_left start state.turn

end SumTemplate

/-- The position only chooses the names of the symbols that the sum phase hands out, if the symbols
with a single character are the same in both runs and no name begins another one: both runs end, or
both stall, in one state with the names left open. -/
theorem reduceSums_alike (memory : GroupMemory) {expression : Text}
    (plain : ∀ c ∈ expression, c.isUpper = false ∧ c.isDigit = false) {first second : Nat}
    (alike : Alike first second (handedOut memory expression ⟨first⟩)) :
    ∃ state : SumTemplate, state.IsBelow ∧
      handedOut memory expression ⟨first⟩ = state.turn ∧ handedOut memory expression ⟨second⟩ = state.turn ∧
        reduceSums memory expression ⟨first⟩ = state.answer first ∧
          reduceSums memory expression ⟨second⟩ = state.answer second := by
  have fits := Nat.le_of_eq (position_add_handedOut memory expression ⟨first⟩).symm
  have below := SumTemplate.isBelow_initial plain
  rw [← SumTemplate.progress_initial] at fits
  obtain ⟨state, kept, here, there⟩ := SumTemplate.exists_settle alike below fits
  rw [SumTemplate.progress_initial] at here there
  exact ⟨state, kept, SumTemplate.handedOut_eq_turn here, SumTemplate.handedOut_eq_turn there,
    SumTemplate.reduceSums_eq_answer here, SumTemplate.reduceSums_eq_answer there⟩

/-- Three sums in each other, once with names of two characters and once with names of three. -/
theorem reduceSums_alike_three_deep :
    (∀ c ∈ "x((a+b)+(c+(d+e)))".toList, c.isUpper = false ∧ c.isDigit = false) ∧
      Alike 25 250 (handedOut .run "x((a+b)+(c+(d+e)))".toList ⟨25⟩) ∧
        ∃ state : SumTemplate, state.IsBelow ∧
          handedOut .run "x((a+b)+(c+(d+e)))".toList ⟨25⟩ = state.turn ∧
            handedOut .run "x((a+b)+(c+(d+e)))".toList ⟨250⟩ = state.turn ∧
              reduceSums .run "x((a+b)+(c+(d+e)))".toList ⟨25⟩ = state.answer 25 ∧
                reduceSums .run "x((a+b)+(c+(d+e)))".toList ⟨250⟩ = state.answer 250 := by
  have checked : "x((a+b)+(c+(d+e)))".toList.all (fun c => !c.isUpper && !c.isDigit) = true := by decide
  have plain : ∀ c ∈ "x((a+b)+(c+(d+e)))".toList, c.isUpper = false ∧ c.isDigit = false := fun c member => by
    simpa using List.all_eq_true.mp checked c member
  have count : handedOut .run "x((a+b)+(c+(d+e)))".toList ⟨25⟩ = 5 := by decide +kernel
  have alike : Alike 25 250 (handedOut .run "x((a+b)+(c+(d+e)))".toList ⟨25⟩) := by
    rw [count]
    exact Alike.of_length (by decide +kernel : ∀ turn < 5, _ = 2) (by decide +kernel : ∀ turn < 5, _ = 3) (by decide)
  exact ⟨plain, alike, reduceSums_alike .run plain alike⟩

/-- Behind a parenthesis the name `A1` is found as a group of its own, which `A` is not. So the position
decides how many symbols the sums of `x((a+b)+(c+(d+e)))` take. -/
theorem exists_position_observable :
    ∃ expression : Text, (∀ c ∈ expression, c.isUpper = false ∧ c.isDigit = false) ∧
      ∀ memory, ∃ rules others, reduceSums memory expression {} = .ok ⟨"xD".toList, ⟨0 + 4⟩, rules⟩ ∧
        reduceSums memory expression ⟨25⟩ = .ok ⟨"E1".toList, ⟨25 + 5⟩, others⟩ := by
  let rules : List Production :=
    [⟨.nth 0, ['a']⟩, ⟨.nth 0, ['b']⟩, ⟨.nth 1, ['d']⟩, ⟨.nth 1, ['e']⟩, ⟨.nth 2, ['c']⟩, ⟨.nth 2, ['B']⟩,
      ⟨.nth 3, ['A']⟩, ⟨.nth 3, ['C']⟩]
  let others : List Production :=
    [⟨.nth 25, ['a']⟩, ⟨.nth 25, ['b']⟩, ⟨.nth 26, ['d']⟩, ⟨.nth 26, ['e']⟩, ⟨.nth 27, ['A', '1']⟩,
      ⟨.nth 28, ['c']⟩, ⟨.nth 28, ['B', '1']⟩, ⟨.nth 29, ['x', 'C', '1']⟩, ⟨.nth 29, ['D', '1']⟩]
  have checked : "x((a+b)+(c+(d+e)))".toList.all (fun c => !c.isUpper && !c.isDigit) = true := by decide
  refine ⟨"x((a+b)+(c+(d+e)))".toList, fun c member => ?_, fun memory => ⟨rules, others, ?_⟩⟩
  · simpa using List.all_eq_true.mp checked c member
  · cases memory <;> decide +kernel

end SumStar
