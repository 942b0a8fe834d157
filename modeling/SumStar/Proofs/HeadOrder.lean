import SumStar.Proofs.Numbering
import SumStar.Proofs.Repetitions

/-! The order of heads. A phase emits the productions of a symbol at the moment it hands the symbol out,
so the heads it emits stand in the order of the supply, between the positions in front of the phase
and behind it. The symbol that star groups share is handed out only once they all have it. -/

namespace SumStar

variable {first middle last position : Nat} {productions others : List Production}

/-- The heads are symbols from the first position on, in front of the last one and in order. -/
def Ascending (first last : Nat) (productions : List Production) : Prop :=
  ∃ positions : List Nat, productions.map Production.head = positions.map .nth ∧ positions.Pairwise (· ≤ ·) ∧
    ∀ position ∈ positions, first ≤ position ∧ position < last

namespace Ascending

theorem nil (first last : Nat) : Ascending first last [] :=
  ⟨[], rfl, .nil, by simp⟩

theorem append (before : Ascending first middle productions) (behind : Ascending middle last others)
    (up : first ≤ middle) (on : middle ≤ last) : Ascending first last (productions ++ others) := by
  obtain ⟨low, lowHeads, lowOrder, lowBounds⟩ := before
  obtain ⟨high, highHeads, highOrder, highBounds⟩ := behind
  refine ⟨low ++ high, by rw [List.map_append, List.map_append, lowHeads, highHeads], ?_, ?_⟩
  · refine List.pairwise_append.mpr ⟨lowOrder, highOrder, fun one earlier other later => ?_⟩
    have := (lowBounds one earlier).2
    have := (highBounds other later).1
    omega
  · intro position member
    rcases List.mem_append.mp member with earlier | later
    · have := lowBounds position earlier
      omega
    · have := highBounds position later
      omega

theorem of_head (headed : ∀ production ∈ productions, production.head = .nth position) (above : first ≤ position)
    (below : position < last) : Ascending first last productions := by
  refine ⟨List.replicate productions.length position, ?_, ?_, ?_⟩
  · rw [List.map_replicate]
    refine List.eq_replicate_iff.mpr ⟨List.length_map _, fun symbol member => ?_⟩
    obtain ⟨production, inside, rfl⟩ := List.mem_map.mp member
    exact headed production inside
  · exact List.pairwise_replicate.mpr (Or.inr (Nat.le_refl _))
  · intro other member
    rw [List.eq_of_mem_replicate member]
    exact ⟨above, below⟩

theorem exists_position (ascending : Ascending first last productions) :
    ∀ production ∈ productions, ∃ position, first ≤ position ∧ position < last ∧ production.head = .nth position := by
  obtain ⟨positions, heads, _, bounds⟩ := ascending
  intro production member
  have inside : production.head ∈ positions.map .nth := heads ▸ List.mem_map_of_mem member
  obtain ⟨position, here, same⟩ := List.mem_map.mp inside
  exact ⟨position, (bounds position here).1, (bounds position here).2, same.symm⟩

theorem apart (before : Ascending first middle productions) (behind : Ascending middle last others) :
    ∀ one ∈ productions, ∀ other ∈ others, one.head ≠ other.head := by
  intro one earlier other later same
  obtain ⟨low, _, below, lowHead⟩ := before.exists_position one earlier
  obtain ⟨high, above, _, highHead⟩ := behind.exists_position other later
  rw [lowHead, highHead] at same
  have := Symbol.nth.inj same
  omega

theorem exists_increasing (ascending : Ascending first last productions) :
    ∃ positions : List Nat, (productions.map Production.head).eraseDups = positions.map .nth ∧
      positions.Pairwise (· < ·) := by
  obtain ⟨positions, heads, order, _⟩ := ascending
  refine ⟨positions.eraseDups, ?_, increasing_eraseDups order⟩
  rw [heads]
  exact eraseDups_map fun one _ other _ same => Symbol.nth.inj same

end Ascending

variable {memory : GroupMemory} {naming : StarNaming} {expression : Text} {supply : Supply}

namespace Reduction

variable {reduction : Reduction} {symbol : Symbol} {body : Text} {production : Production}

theorem head_of_mem_repetition (member : production ∈ repetition symbol body) : production.head = symbol := by
  rcases List.mem_cons.mp member with rfl | last
  · rfl
  · exact congrArg Production.head (List.mem_singleton.mp last)

/-- The symbol to be handed out next heads all productions. -/
structure Shares (supply : Supply) (reduction : Reduction) : Prop where
  still : reduction.supply = supply
  headed : ∀ production ∈ reduction.productions, production.head = supply.peek

theorem Shares.visitStar (shares : reduction.Shares supply) (group : Text) :
    (reduction.visitStar .shared group).Shares supply := by
  refine ⟨shares.still, fun production member => ?_⟩
  rcases List.mem_append.mp member with old | new
  · exact shares.headed production old
  · rw [head_of_mem_repetition new, shares.still]

/-- The productions since a position, and where the supply has got to. -/
def AscendsFrom (first : Nat) (reduction : Reduction) : Prop :=
  first ≤ reduction.supply.position ∧ Ascending first reduction.supply.position reduction.productions

theorem AscendsFrom.visitStar (ascends : reduction.AscendsFrom first) (group : Text) :
    (reduction.visitStar .separate group).AscendsFrom first := by
  have own : Ascending reduction.supply.position (reduction.supply.position + 1)
      (repetition reduction.supply.peek (StarGroup.body group)) :=
    .of_head (fun _ => head_of_mem_repetition) (Nat.le_refl _) (Nat.lt_succ_self _)
  exact ⟨Nat.le_succ_of_le ascends.1, ascends.2.append own ascends.1 (Nat.le_succ _)⟩

end Reduction

namespace SumProgress

variable {progress : SumProgress} {group : Text} {scans : Nat} {final : SumProgress}

/-- The productions since a position, and where the supply has got to. -/
def AscendsFrom (first : Nat) (progress : SumProgress) : Prop :=
  first ≤ progress.supply.position ∧ Ascending first progress.supply.position progress.productions

theorem AscendsFrom.introduce (ascends : progress.AscendsFrom first) :
    (progress.introduce memory group).AscendsFrom first := by
  have next : progress.supply.position ≤ progress.supply.position + 1 := Nat.le_succ _
  have own : Ascending progress.supply.position (progress.supply.position + 1)
      ((SumGroup.alternatives group).map (Production.mk progress.supply.peek)) := by
    apply Ascending.of_head _ (Nat.le_refl _) (Nat.lt_succ_self _)
    intro production member
    obtain ⟨body, _, rfl⟩ := List.mem_map.mp member
    rfl
  exact ⟨Nat.le_succ_of_le ascends.1, ascends.2.append own ascends.1 next⟩

theorem AscendsFrom.visit (ascends : progress.AscendsFrom first) :
    (progress.visit memory group).AscendsFrom first := by
  rcases emission_cases memory progress group with ⟨productions, supply⟩ | same
  · rwa [AscendsFrom, productions, supply]
  · rw [same]
    exact ascends.introduce

theorem Settles.ascends (settles : Settles memory scans progress final) (ascends : progress.AscendsFrom first) :
    final.AscendsFrom first :=
  settles.piece_invariant (AscendsFrom first) (fun here _ => here.visit) ascends

end SumProgress

theorem ascending_of_reduceSums {sums : Reduction} (answer : reduceSums memory expression supply = .ok sums) :
    sums.AscendsFrom supply.position := by
  obtain ⟨scans, last, settles, rfl⟩ := exists_settles_of_reduceSums answer
  exact settles.ascends ⟨Nat.le_refl _, .nil _ _⟩

theorem head_reduceStars_shared (expression : Text) (supply : Supply) :
    (reduceStars .shared expression supply).supply = supply.advance ∧
      ∀ production ∈ (reduceStars .shared expression supply).productions, production.head = supply.peek := by
  have start : Reduction.Shares supply ⟨expression, supply, []⟩ := ⟨rfl, by simp⟩
  obtain ⟨scanned, ⟨still, headed⟩, _, same, next⟩ :=
    reduceStars_invariant (Reduction.Shares supply) start fun _ here group _ => here.visitStar group
  rw [next, same, still]
  exact ⟨rfl, headed⟩

theorem ascending_reduceStars_separate (expression : Text) (supply : Supply) :
    (reduceStars .separate expression supply).AscendsFrom supply.position := by
  have start : Reduction.AscendsFrom supply.position ⟨expression, supply, []⟩ := ⟨Nat.le_refl _, .nil _ _⟩
  obtain ⟨scanned, kept, _, same, next⟩ :=
    reduceStars_invariant (Reduction.AscendsFrom supply.position) start fun _ here group _ => here.visitStar group
  rw [Reduction.AscendsFrom, next, same]
  exact kept

theorem ascending_reduceStars (naming : StarNaming) (expression : Text) (supply : Supply) :
    (reduceStars naming expression supply).AscendsFrom supply.position := by
  cases naming with
  | shared =>
    obtain ⟨next, headed⟩ := head_reduceStars_shared expression supply
    rw [Reduction.AscendsFrom, next]
    exact ⟨Nat.le_succ _, .of_head headed (Nat.le_refl _) (Nat.lt_succ_self _)⟩
  | separate => exact ascending_reduceStars_separate expression supply

end SumStar
