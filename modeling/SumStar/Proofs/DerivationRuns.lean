import SumStar.Grammar.Derivation
import SumStar.Proofs.SumOutcome

/-! Derivations taken apart. A derivation that succeeds has a source, a run of the sum phase and a
single scan for stars behind it, and what each visit keeps holds at the end of its phase. -/

namespace SumStar

namespace SumProgress

variable {memory : GroupMemory} {progress last : SumProgress} {scans : Nat}

section Invariants

variable {holds : SumProgress → Prop} {suits : SumProgress → Text → Prop}
  (visited : ∀ progress group, holds progress → suits progress group →
    holds (progress.visit memory group) ∧ ∀ other, suits progress other → suits (progress.visit memory group) other)
include visited

theorem foldl_invariant {groups : List Text} (start : holds progress) (each : ∀ group ∈ groups, suits progress group) :
    holds (groups.foldl (visit memory) progress) := by
  induction groups generalizing progress with
  | nil => exact start
  | cons group groups ih =>
    obtain ⟨kept, still⟩ := visited progress group start (each group (by simp))
    apply ih kept
    intro other member
    exact still other (each other (by simp [member]))

theorem Settles.invariant (settles : Settles memory scans progress last) (start : holds progress)
    (found : ∀ progress, holds progress → ∀ group ∈ progress.found, suits progress group) : holds last := by
  have scan : ∀ progress, holds progress → holds (progress.scan memory) := fun progress here =>
    foldl_invariant visited here (found progress here)
  induction settles with
  | reduced _ => exact start
  | stalled _ _ => exact scan _ start
  | step _ _ _ ih => exact ih (scan _ start)

end Invariants

theorem Settles.piece_invariant (holds : SumProgress → Prop)
    (visited : ∀ {progress : SumProgress} {group rest : Text}, holds progress → SumGroup.Piece group rest →
      holds (progress.visit memory group))
    (settles : Settles memory scans progress last) (start : holds progress) : holds last := by
  have each : ∀ progress group, holds progress → (∃ rest, SumGroup.Piece group rest) →
      holds (progress.visit memory group) ∧
        ∀ other, (∃ rest, SumGroup.Piece other rest) → ∃ rest, SumGroup.Piece other rest :=
    fun _ _ here ⟨_, stands⟩ => ⟨visited here stands, fun _ later => later⟩
  exact settles.invariant each start fun _ _ _ member =>
    SumGroup.exists_piece_of_mem_findAll (List.mem_eraseDups.mp member)

end SumProgress

variable {memory : GroupMemory} {naming : StarNaming} {expression content : Text} {supply : Supply}

theorem exists_settles_of_reduceSums {sums : Reduction} (answer : reduceSums memory expression supply = .ok sums) :
    ∃ scans last, SumProgress.Settles memory scans (.initial expression supply) last ∧
      sums = ⟨last.expression, last.supply, last.productions⟩ := by
  obtain ⟨scans, _, settles⟩ := SumProgress.settles_initial memory expression supply
  refine ⟨scans, _, settles, ?_⟩
  by_cases left : '+' ∈ ((SumProgress.initial expression supply).settle memory
      (SumProgress.roundLimit expression)).expression
  · cases (if_pos left).symm.trans answer
  · exact (Except.ok.inj ((if_neg left).symm.trans answer)).symm

theorem plus_notMem_of_reduceSums {sums : Reduction} (answer : reduceSums memory expression supply = .ok sums) :
    '+' ∉ sums.expression := by
  intro plus
  by_cases left : '+' ∈ ((SumProgress.initial expression supply).settle memory
      (SumProgress.roundLimit expression)).expression
  · cases (if_pos left).symm.trans answer
  · cases (if_neg left).symm.trans answer
    exact left plus

theorem exists_settles_of_stalled {stalled : Stalled} (answer : reduceSums memory expression supply = .error stalled) :
    ∃ scans last, SumProgress.Settles memory scans (.initial expression supply) last ∧
      stalled.residual = last.expression := by
  obtain ⟨scans, _, settles⟩ := SumProgress.settles_initial memory expression supply
  refine ⟨scans, _, settles, ?_⟩
  by_cases left : '+' ∈ ((SumProgress.initial expression supply).settle memory
      (SumProgress.roundLimit expression)).expression
  · cases (if_pos left).symm.trans answer
    rfl
  · cases (if_neg left).symm.trans answer

/-- An invariant of the visits holds behind the star phase, but for the supply, which is advanced
once more when all groups share a symbol. -/
theorem reduceStars_invariant (holds : Reduction → Prop) (start : holds ⟨expression, supply, []⟩)
    (visited : ∀ reduction, holds reduction → ∀ group ∈ StarGroup.findAll expression,
      holds (reduction.visitStar naming group)) :
    ∃ scanned, holds scanned ∧
      (reduceStars naming expression supply).expression = scanned.expression ∧
      (reduceStars naming expression supply).productions = scanned.productions ∧
      (reduceStars naming expression supply).supply =
        match naming with
        | .shared => scanned.supply.advance
        | .separate => scanned.supply := by
  have run : ∀ (groups : List Text) (reduction : Reduction), holds reduction →
      (∀ group ∈ groups, group ∈ StarGroup.findAll expression) →
      holds (groups.foldl (Reduction.visitStar naming) reduction) := by
    intro groups
    induction groups with
    | nil => exact fun _ here _ => here
    | cons group groups ih =>
      intro reduction here found
      apply ih _ (visited reduction here group (found group (by simp)))
      exact fun other member => found other (by simp [member])
  refine ⟨_, run _ _ start fun group member => List.mem_eraseDups.mp member, ?_⟩
  cases naming with
  | shared => exact ⟨rfl, rfl, rfl⟩
  | separate => exact ⟨rfl, rfl, rfl⟩

namespace Grammar

variable {options : DerivationOptions} {grammar : Grammar} {source : Source} {sums : Reduction}

theorem derive_of_reduceSums (read : Source.ofText content = .ok source)
    (reduced : reduceSums options.memory source.expression {} = .ok sums) :
    derive options content =
      .ok (assemble source.terminals sums (reduceStars options.naming sums.expression sums.supply)) := by
  have inner : ofSource options source =
      .ok (assemble source.terminals sums (reduceStars options.naming sums.expression sums.supply)) := by
    rw [ofSource, reduced]
    rfl
  rw [derive, read]
  change (ofSource options source).mapError DerivationError.stalled = _
  rw [inner]
  rfl

theorem derive_of_stalled {cause : Stalled} (read : Source.ofText content = .ok source)
    (stalled : reduceSums options.memory source.expression {} = .error cause) :
    derive options content = .error (.stalled cause) := by
  have inner : ofSource options source = .error cause := by
    rw [ofSource, stalled]
    rfl
  rw [derive, read]
  change (ofSource options source).mapError DerivationError.stalled = _
  rw [inner]
  rfl

theorem derive_of_missing {cause : SourceError} (missing : Source.ofText content = .error cause) :
    derive options content = .error (.source cause) := by
  rw [derive, missing]
  rfl

theorem exists_reduceSums_of_derive (read : Source.ofText content = .ok source)
    (derived : derive options content = .ok grammar) :
    ∃ sums, reduceSums options.memory source.expression {} = .ok sums ∧
      grammar = assemble source.terminals sums (reduceStars options.naming sums.expression sums.supply) := by
  cases reduced : reduceSums options.memory source.expression {} with
  | ok sums => exact ⟨sums, rfl, Except.ok.inj (derived.symm.trans (derive_of_reduceSums read reduced))⟩
  | error cause => cases derived.symm.trans (derive_of_stalled read reduced)

theorem exists_source_of_derive (derived : derive options content = .ok grammar) :
    ∃ source, Source.ofText content = .ok source := by
  cases read : Source.ofText content with
  | ok source => exact ⟨source, rfl⟩
  | error cause => cases derived.symm.trans (derive_of_missing read)

end Grammar

end SumStar
