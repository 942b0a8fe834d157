import SumStar.Proofs.HeadOrder
import SumStar.Session

/-! Symbols of a session. The supply is threaded through all steps and never goes back, whatever is done
to the expression in between, so each step emits its productions behind those of the steps before
it. What a stalled sum phase handed out it hands out again, but nothing of it was emitted. -/

namespace SumStar.Session

variable {session : Session} {step : Step} {steps : List Step}

/-- The productions that a step adds to those of the session. -/
def emitted (session : Session) : Step → List Production
  | .sums memory =>
    match session.sums memory with
    | .ok reduction => reduction.productions
    | .error _ => []
  | .stars naming => (session.stars naming).productions
  | _ => []

/-- What is emitted by each step of a session. -/
def emissions (session : Session) : List Step → List (List Production)
  | [] => []
  | step :: steps => session.emitted step :: (session.after step).emissions steps

/-- A step collects what it emits, all of it as sums or all of it as repetitions. -/
theorem after_cases (session : Session) (step : Step) :
    ((session.after step).sumProductions = session.sumProductions ++ session.emitted step ∧
        (session.after step).starProductions = session.starProductions) ∨
      ((session.after step).sumProductions = session.sumProductions ∧
        (session.after step).starProductions = session.starProductions ++ session.emitted step) := by
  cases step with
  | append | prepend | advance => exact Or.inl ⟨(List.append_nil _).symm, rfl⟩
  | sums memory =>
    apply Or.inl
    simp only [after, emitted]
    cases session.sums memory with
    | ok reduction => exact ⟨rfl, rfl⟩
    | error _ => exact ⟨(List.append_nil _).symm, rfl⟩
  | stars naming => exact Or.inr ⟨rfl, rfl⟩

theorem ascending_emitted (session : Session) (step : Step) :
    session.supply.position ≤ (session.after step).supply.position ∧
      Ascending session.supply.position (session.after step).supply.position (session.emitted step) := by
  cases step with
  | append | prepend => exact ⟨Nat.le_refl _, .nil _ _⟩
  | advance count => exact ⟨Nat.le_add_right _ _, .nil _ _⟩
  | sums memory =>
    simp only [after, emitted]
    cases answer : session.sums memory with
    | ok reduction => exact ascending_of_reduceSums answer
    | error _ => exact ⟨Nat.le_refl _, .nil _ _⟩
  | stars naming => exact ascending_reduceStars naming session.expression session.supply

theorem perm_run (session : Session) (steps : List Step) :
    ((session.run steps).sumProductions ++ (session.run steps).starProductions).Perm
      (session.sumProductions ++ session.starProductions ++ (session.emissions steps).flatten) := by
  induction steps generalizing session with
  | nil => simp [run, emissions]
  | cons step steps ih =>
    refine (ih (session.after step)).trans ?_
    rw [emissions, List.flatten_cons, ← List.append_assoc]
    apply List.Perm.append_right
    rcases after_cases session step with ⟨sums, stars⟩ | ⟨sums, stars⟩
    · rw [sums, stars, List.append_assoc, List.append_assoc]
      exact List.Perm.append_left _ List.perm_append_comm
    · rw [sums, stars, List.append_assoc]

/-- The productions collected since a position are in order in either list, and no head of one list is a
head of the other. -/
structure Orderly (first : Nat) (session : Session) : Prop where
  reached : first ≤ session.supply.position
  sums : Ascending first session.supply.position session.sumProductions
  stars : Ascending first session.supply.position session.starProductions
  apart : ∀ sum ∈ session.sumProductions, ∀ star ∈ session.starProductions, sum.head ≠ star.head

theorem Orderly.after {first : Nat} (orderly : session.Orderly first) (step : Step) :
    (session.after step).Orderly first := by
  obtain ⟨on, emitted⟩ := ascending_emitted session step
  have none : Ascending session.supply.position (session.after step).supply.position [] := .nil _ _
  have sums := orderly.sums.append emitted orderly.reached on
  have stars := orderly.stars.append emitted orderly.reached on
  have stillSums := orderly.sums.append none orderly.reached on
  have stillStars := orderly.stars.append none orderly.reached on
  rw [List.append_nil] at stillSums stillStars
  rcases after_cases session step with ⟨sumsSame, starsSame⟩ | ⟨sumsSame, starsSame⟩
  · refine ⟨Nat.le_trans orderly.reached on, sumsSame ▸ sums, starsSame ▸ stillStars, ?_⟩
    rw [sumsSame, starsSame]
    intro sum member star inside same
    rcases List.mem_append.mp member with old | new
    · exact orderly.apart sum old star inside same
    · exact orderly.stars.apart emitted star inside sum new same.symm
  · refine ⟨Nat.le_trans orderly.reached on, sumsSame ▸ stillSums, starsSame ▸ stars, ?_⟩
    rw [sumsSame, starsSame]
    intro sum member star inside same
    rcases List.mem_append.mp inside with old | new
    · exact orderly.apart sum member star old same
    · exact orderly.sums.apart emitted sum member star new same

theorem Orderly.run {first : Nat} (orderly : session.Orderly first) (steps : List Step) :
    (session.run steps).Orderly first := by
  induction steps generalizing session with
  | nil => exact orderly
  | cons step steps ih => exact ih (orderly.after step)

/-- A step emits no head that an earlier one emitted. -/
theorem pairwise_emissions (session : Session) (steps : List Step) :
    (session.emissions steps).Pairwise (fun one other => ∀ earlier ∈ one, ∀ later ∈ other, earlier.head ≠ later.head) ∧
      ∀ emission ∈ session.emissions steps, ∀ production ∈ emission,
        ∃ position, session.supply.position ≤ position ∧ production.head = .nth position := by
  induction steps generalizing session with
  | nil => exact ⟨.nil, by simp [emissions]⟩
  | cons step steps ih =>
    obtain ⟨on, own⟩ := ascending_emitted session step
    obtain ⟨apart, behind⟩ := ih (session.after step)
    constructor
    · refine List.pairwise_cons.mpr ⟨fun emission member earlier here later inside same => ?_, apart⟩
      obtain ⟨low, _, below, lowHead⟩ := own.exists_position earlier here
      obtain ⟨high, above, highHead⟩ := behind emission member later inside
      rw [lowHead, highHead] at same
      have := Symbol.nth.inj same
      omega
    · intro emission member production inside
      rcases List.mem_cons.mp member with rfl | later
      · obtain ⟨position, above, _, headed⟩ := own.exists_position production inside
        exact ⟨position, above, headed⟩
      · obtain ⟨position, above, headed⟩ := behind emission later production inside
        exact ⟨position, Nat.le_trans on above, headed⟩

/-- Heads of sums are declared in front of heads of repetitions. -/
theorem Orderly.nonTerminals_assemble {first : Nat} (orderly : session.Orderly first) (terminals : Text) :
    (session.assemble terminals).nonTerminals =
      (session.sumProductions.map Production.head).eraseDups ++
        (session.starProductions.map Production.head).eraseDups := by
  have kept : (session.starProductions.map Production.head).removeAll (session.sumProductions.map Production.head) =
      session.starProductions.map Production.head := by
    apply List.filter_eq_self.mpr
    intro symbol member
    obtain ⟨star, inside, rfl⟩ := List.mem_map.mp member
    have absent : star.head ∉ session.sumProductions.map Production.head := by
      intro other
      obtain ⟨sum, here, same⟩ := List.mem_map.mp other
      exact orderly.apart sum here star inside same
    simpa using absent
  change ((session.sumProductions ++ session.starProductions).map Production.head).eraseDups = _
  rw [List.map_append, List.eraseDups_append, kept]

theorem exists_increasing_names {first last : Nat} {productions : List Production}
    (ascending : Ascending first last productions) :
    ∃ positions : List Nat, (productions.map Production.head).eraseDups = positions.map .nth ∧
      (productions.map (·.head.name)).eraseDups = positions.map Symbol.nameAt ∧ positions.Pairwise (· < ·) := by
  obtain ⟨positions, heads, increasing⟩ := ascending.exists_increasing
  refine ⟨positions, heads, ?_, increasing⟩
  have names : ((productions.map Production.head).map Symbol.name).eraseDups =
      (productions.map Production.head).eraseDups.map Symbol.name :=
    eraseDups_map fun one _ other _ same => Symbol.name_injective same
  rw [heads, List.map_map, List.map_map] at names
  exact names

/-- Whatever is done in a session, each production has a head between the positions at its start and at
its end, productions of different steps have different heads, and the grammar of all of them
declares their heads once each, those of sums first, in the order in which they appear. -/
theorem symbols_of_run (expression : Text) (supply : Supply) (steps : List Step) (terminals : Text) :
    let start : Session := { expression := expression, supply := supply }
    let session := start.run steps
    let collected := session.sumProductions ++ session.starProductions
    let declared := (session.assemble terminals).nonTerminals.map Symbol.name
    (∀ production ∈ collected, ∃ position, supply.position ≤ position ∧ position < session.supply.position ∧
        production.head.name = Symbol.nameAt position) ∧
      collected.Perm (start.emissions steps).flatten ∧
      ((start.emissions steps).Pairwise fun one other =>
        ∀ earlier ∈ one, ∀ later ∈ other, earlier.head.name ≠ later.head.name) ∧
      declared.Nodup ∧ (∀ name, name ∈ declared ↔ ∃ production ∈ collected, production.head.name = name) ∧
      ∃ sums stars : List Nat, declared = (sums ++ stars).map Symbol.nameAt ∧
        (session.sumProductions.map (·.head.name)).eraseDups = sums.map Symbol.nameAt ∧ sums.Pairwise (· < ·) ∧
        (session.starProductions.map (·.head.name)).eraseDups = stars.map Symbol.nameAt ∧ stars.Pairwise (· < ·) := by
  intro start session collected declared
  have fresh : start.Orderly supply.position := ⟨Nat.le_refl _, .nil _ _, .nil _ _, by simp [start]⟩
  have orderly : session.Orderly supply.position := fresh.run steps
  have listed : (session.assemble terminals).nonTerminals = (collected.map Production.head).eraseDups := rfl
  refine ⟨?_, perm_run start steps, ?_, ?_, ?_, ?_⟩
  · intro production member
    have placed : ∃ position, supply.position ≤ position ∧ position < session.supply.position ∧
        production.head = .nth position := by
      rcases List.mem_append.mp member with sum | star
      · exact orderly.sums.exists_position production sum
      · exact orderly.stars.exists_position production star
    obtain ⟨position, above, below, headed⟩ := placed
    exact ⟨position, above, below, congrArg Symbol.name headed⟩
  · exact (pairwise_emissions start steps).1.imp fun apart earlier here later inside same =>
      apart earlier here later inside (Symbol.name_injective same)
  · rw [show declared = _ from congrArg (List.map Symbol.name) listed]
    exact (nodup_eraseDups _).map Symbol.name_injective
  · intro name
    rw [show declared = _ from congrArg (List.map Symbol.name) listed]
    simp
  · obtain ⟨sums, sumHeads, sumNames, sumsIncrease⟩ := exists_increasing_names orderly.sums
    obtain ⟨stars, starHeads, starNames, starsIncrease⟩ := exists_increasing_names orderly.stars
    refine ⟨sums, stars, ?_, sumNames, sumsIncrease, starNames, starsIncrease⟩
    rw [show declared = _ from congrArg (List.map Symbol.name) (orderly.nonTerminals_assemble terminals), sumHeads,
      starHeads, ← List.map_append, List.map_map]
    rfl

end SumStar.Session
