/-! Lists without their repetitions. Of what occurs several times the first occurrence is kept, so
numbers in order stay in order and increase from each to the next. -/

namespace SumStar

variable {α β : Type}

theorem eraseDups_sublist [BEq α] (list : List α) : list.eraseDups.Sublist list := by
  cases list with
  | nil => exact List.Sublist.refl _
  | cons first others =>
    rw [List.eraseDups_cons]
    exact ((eraseDups_sublist _).trans List.filter_sublist).cons_cons first
termination_by list.length
decreasing_by exact Nat.lt_succ_of_le (List.length_filter_le _ _)

theorem nodup_eraseDups [BEq α] [LawfulBEq α] (list : List α) : list.eraseDups.Nodup := by
  cases list with
  | nil => exact List.nodup_nil
  | cons first others =>
    rw [List.eraseDups_cons]
    refine List.nodup_cons.mpr ⟨fun member => ?_, nodup_eraseDups _⟩
    simpa using (List.mem_filter.mp (List.mem_eraseDups.mp member)).2
termination_by list.length
decreasing_by exact Nat.lt_succ_of_le (List.length_filter_le _ _)

/-- A change that keeps entries apart keeps repetitions as they are. -/
theorem eraseDups_map [BEq α] [LawfulBEq α] [BEq β] [LawfulBEq β] {change : α → β} {list : List α}
    (injective : ∀ one ∈ list, ∀ other ∈ list, change one = change other → one = other) :
    (list.map change).eraseDups = list.eraseDups.map change := by
  match list with
  | [] => rfl
  | first :: others =>
    have inside : ∀ other ∈ others.filter fun other => !other == first, other ∈ first :: others :=
      fun other member => List.mem_cons_of_mem _ (List.mem_filter.mp member).1
    have later : ((others.filter fun other => !other == first).map change).eraseDups =
        (others.filter fun other => !other == first).eraseDups.map change :=
      eraseDups_map fun one member other another => injective one (inside one member) other (inside other another)
    have kept : (others.map change).filter (fun image => !image == change first) =
        (others.filter fun other => !other == first).map change := by
      rw [List.filter_map]
      apply congrArg
      apply List.filter_congr
      intro other member
      have same : (change other == change first) = (other == first) := by
        rw [Bool.eq_iff_iff, beq_iff_eq, beq_iff_eq]
        exact ⟨injective other (List.mem_cons_of_mem _ member) first List.mem_cons_self, congrArg change⟩
      exact congrArg not same
    rw [List.map_cons, List.eraseDups_cons, List.eraseDups_cons, List.map_cons, kept, later]
termination_by list.length
decreasing_by exact Nat.lt_succ_of_le (List.length_filter_le _ _)

theorem eraseDups_doubled [BEq α] [LawfulBEq α] {list : List α} (distinct : list.Nodup) :
    (list.flatMap fun entry => [entry, entry]).eraseDups = list := by
  induction list with
  | nil => rfl
  | cons first others ih =>
    obtain ⟨new, rest⟩ := List.nodup_cons.mp distinct
    have later : first ∉ others.flatMap fun entry => [entry, entry] := by simpa using new
    have kept : (first :: others.flatMap fun entry => [entry, entry]).filter (fun entry => !entry == first) =
        others.flatMap fun entry => [entry, entry] := by
      rw [List.filter_cons_of_neg (by simp)]
      refine List.filter_eq_self.mpr fun entry member => ?_
      have other : entry ≠ first := fun same => later (same ▸ member)
      simpa using other
    rw [List.flatMap_cons, List.cons_append, List.singleton_append, List.eraseDups_cons, kept, ih rest]

theorem increasing_eraseDups {numbers : List Nat} (ordered : numbers.Pairwise (· ≤ ·)) :
    numbers.eraseDups.Pairwise (· < ·) := by
  have still := ordered.sublist (eraseDups_sublist numbers)
  exact (still.and (nodup_eraseDups numbers)).imp fun both => Nat.lt_of_le_of_ne both.1 both.2

end SumStar
