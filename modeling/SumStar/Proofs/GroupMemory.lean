import SumStar.Proofs.Repetitions
import SumStar.Proofs.SymbolLayers

/-! How long groups are remembered does not show as long as all names are single letters. A group
that was exchanged is gone from the expression, and a letter that is put in later stands in none of
the groups of before, so no group of an earlier scan is ever found again. -/

namespace SumStar

open Text

/-- The characters that are no upper-case letters; every source of single-letter names keeps to them. -/
def IsPlain (c : Char) : Prop :=
  c.isUpper = false

theorem Text.SpeltWith.letterAt_notMem {position : Nat} {text : Text} (spelt : SpeltWith IsPlain position text)
    (first : position < 25) : Symbol.letterAt position ∉ text := by
  intro member
  rcases spelt _ member with plain | ⟨earlier, below, named⟩
  · exact absurd (Symbol.isUpper_letterAt position) (ne_true_of_eq_false plain)
  · have same := Symbol.eq_letterAt_of_mem_nameAt named (Symbol.isUpper_letterAt position)
    exact Nat.ne_of_gt below (Symbol.letterAt_injective first (Nat.lt_trans below first) same)

namespace SumProgress

variable {progress : SumProgress} {group : Text} {groups : List Text}

/-- The progress of a run that remembers groups for a scan only. -/
def forget (progress : SumProgress) : SumProgress :=
  { progress with known := [] }

/-- Groups that are remembered have gone. -/
structure Gone (progress : SumProgress) : Prop where
  spelt : SpeltWith IsPlain progress.supply.position progress.expression
  known : ∀ entry ∈ progress.known,
    SpeltWith IsPlain progress.supply.position entry.1 ∧ ¬ entry.1 <:+: progress.expression

theorem gone_initial {expression : Text} (plain : ∀ c ∈ expression, IsPlain c) (supply : Supply) :
    (initial expression supply).Gone :=
  ⟨fun c member => Or.inl (plain c member), by simp [initial]⟩

theorem Gone.introduce (gone : progress.Gone) (present : group ≠ [])
    (spelt : SpeltWith IsPlain progress.supply.position group) (first : progress.supply.position < 25) :
    (progress.introduce .run group).Gone := by
  have named : Symbol.nameAt progress.supply.position = [Symbol.letterAt progress.supply.position] :=
    Symbol.nameAt_of_lt first
  have foreign : ∀ {text : Text}, SpeltWith IsPlain progress.supply.position text →
      ∀ c ∈ text, c ∉ Symbol.nameAt progress.supply.position := by
    intro text own c member new
    rw [named, List.mem_singleton] at new
    exact own.letterAt_notMem first (new ▸ member)
  have filled := Symbol.nameAt_ne_nil progress.supply.position
  have later : progress.supply.position ≤ progress.supply.position + 1 := Nat.le_succ _
  refine ⟨(gone.spelt.mono later).replaceAll present (.nameAt (Nat.lt_succ_self _)), ?_⟩
  intro entry member
  rcases List.mem_cons.mp member with rfl | old
  · exact ⟨spelt.mono later, not_infix_replaceAll present filled (foreign spelt) _⟩
  · obtain ⟨own, absent⟩ := gone.known entry old
    refine ⟨own.mono later, fun inside => absent ?_⟩
    have some : entry.1 ≠ [] := fun empty => absent (empty ▸ List.nil_infix)
    exact infix_of_infix_replaceAll present filled (foreign own) some inside

theorem nodup_found : progress.found.Nodup :=
  nodup_eraseDups _

/-- What a group has that a scan finds and has not visited yet. -/
structure Awaits (progress : SumProgress) (group : Text) : Prop where
  present : group ≠ []
  spelt : SpeltWith IsPlain progress.supply.position group
  unknown : progress.known.lookup group = none

theorem Gone.awaits (gone : progress.Gone) : ∀ group ∈ progress.found, progress.Awaits group := by
  intro group member
  have inside := SumGroup.infix_of_mem_findAll (List.mem_eraseDups.mp member)
  refine ⟨present_of_found group member, gone.spelt.of_subset fun c => inside.subset (a := c), ?_⟩
  cases remembered : progress.known.lookup group with
  | none => rfl
  | some symbol => exact False.elim ((gone.known _ (mem_of_lookup remembered)).2 inside)

theorem Awaits.visit_cases (awaits : progress.Awaits group) :
    (progress.visit .run group = progress ∧ progress.forget.visit .scan group = progress.forget) ∨
      (progress.visit .run group = progress.introduce .run group ∧
        progress.forget.visit .scan group = (progress.introduce .run group).forget) := by
  unfold visit
  rw [awaits.unknown]
  by_cases allocated : progress.supply.isAllocated group = true
  · exact Or.inl ⟨if_pos allocated, if_pos allocated⟩
  · exact Or.inr ⟨if_neg allocated, if_neg allocated⟩

theorem Awaits.introduce (awaits : progress.Awaits group) {other : Text} (differ : group ≠ other) :
    (progress.introduce .run other).Awaits group := by
  refine ⟨awaits.present, awaits.spelt.mono (Nat.le_succ _), ?_⟩
  have apart : (group == other) = false := beq_eq_false_iff_ne.mpr differ
  change List.lookup group ((other, progress.supply.peek) :: progress.known) = none
  rw [List.lookup_cons, apart]
  exact awaits.unknown

/-- The bound is asked of both runs together, so it may be known of either of them. -/
theorem Gone.foldl_forget (gone : progress.Gone) (distinct : groups.Nodup)
    (awaits : ∀ group ∈ groups, progress.Awaits group)
    (first : ∀ position, progress.supply.position ≤ position →
      position < (groups.foldl (visit .scan) progress.forget).supply.position →
      position < (groups.foldl (visit .run) progress).supply.position → position < 25) :
    groups.foldl (visit .scan) progress.forget = (groups.foldl (visit .run) progress).forget ∧
      (groups.foldl (visit .run) progress).Gone := by
  induction groups generalizing progress with
  | nil => exact ⟨rfl, gone⟩
  | cons group groups ih =>
    obtain ⟨own, distinct⟩ := List.nodup_cons.mp distinct
    have here := awaits group (by simp)
    have later : ∀ other ∈ groups, progress.Awaits other := fun other member => awaits other (by simp [member])
    rw [List.foldl_cons, List.foldl_cons] at first ⊢
    rcases here.visit_cases with ⟨run, scan⟩ | ⟨run, scan⟩
    · rw [run, scan] at first ⊢
      exact ih gone distinct later first
    · rw [run, scan] at first ⊢
      have grown : ∀ {other : SumProgress}, other.supply.position = progress.supply.position + 1 →
          ∀ memory, progress.supply.position < (groups.foldl (visit memory) other).supply.position := by
        intro other next memory
        have atMost : other.supply.position ≤ (groups.foldl (visit memory) other).supply.position :=
          position_foldl_le other groups
        omega
      have single := first _ (Nat.le_refl _) (grown rfl .scan) (grown rfl .run)
      apply ih (gone.introduce here.present here.spelt single) distinct
      · intro other member
        exact (later other member).introduce fun same => own (same ▸ member)
      · exact fun position above => first position (Nat.le_of_succ_le above)

theorem Gone.scan_forget (gone : progress.Gone)
    (first : ∀ position, progress.supply.position ≤ position →
      position < (progress.forget.scan .scan).supply.position →
      position < (progress.scan .run).supply.position → position < 25) :
    progress.forget.scan .scan = (progress.scan .run).forget ∧ (progress.scan .run).Gone :=
  gone.foldl_forget nodup_found gone.awaits first

/-- Both runs go through the same expressions. -/
theorem Gone.settle_forget (gone : progress.Gone) (rounds : Nat)
    (first : ∀ position, progress.supply.position ≤ position →
      position < (progress.forget.settle .scan rounds).supply.position →
      position < (progress.settle .run rounds).supply.position → position < 25) :
    progress.forget.settle .scan rounds = (progress.settle .run rounds).forget := by
  induction rounds generalizing progress with
  | zero => rfl
  | succ rounds ih =>
    by_cases plus : '+' ∈ progress.expression
    · have left : '+' ∈ progress.forget.expression := plus
      obtain ⟨same, kept⟩ := gone.scan_forget fun position above scan run =>
        first position above (Nat.lt_of_lt_of_le scan (position_scan_le_settle left rounds))
          (Nat.lt_of_lt_of_le run (position_scan_le_settle plus rounds))
      rw [settle_succ left, settle_succ plus] at first ⊢
      rw [same] at first ⊢
      by_cases unchanged : (progress.scan .run).expression = progress.expression
      · have still : (progress.scan .run).forget.expression = progress.forget.expression := unchanged
        rw [if_pos unchanged, if_pos still]
      · have still : (progress.scan .run).forget.expression ≠ progress.forget.expression := unchanged
        rw [if_neg unchanged, if_neg still] at first ⊢
        exact ih kept fun position above => first position (Nat.le_trans position_scan_le above)
    · have none : '+' ∉ progress.forget.expression := plus
      rw [settle, settle, if_neg plus, if_neg none]

end SumProgress

theorem reduceSums_forget {expression : Text} (plain : ∀ c ∈ expression, IsPlain c) (supply : Supply)
    (single : ∀ position, supply.position ≤ position →
      position < supply.position + handedOut .scan expression supply →
      position < supply.position + handedOut .run expression supply → position < 25) :
    reduceSums .run expression supply = reduceSums .scan expression supply := by
  have same := (SumProgress.gone_initial plain supply).settle_forget (SumProgress.roundLimit expression)
    fun position above scan run => single position above (by rwa [position_add_handedOut])
      (by rwa [position_add_handedOut])
  have start : (SumProgress.initial expression supply).forget = .initial expression supply := rfl
  rw [start] at same
  rw [reduceSums, reduceSums, same]
  rfl

theorem reduceSums_scan_of_ok {memory : GroupMemory} {expression : Text} {supply : Supply} {sums : Reduction}
    (plain : ∀ c ∈ expression, IsPlain c) (answer : reduceSums memory expression supply = .ok sums)
    (few : sums.supply.position ≤ 25) : reduceSums .scan expression supply = .ok sums := by
  have reached : supply.position + handedOut memory expression supply ≤ 25 := by
    rw [position_add_handedOut, ← supply_of_ok answer]
    exact few
  cases memory with
  | scan => exact answer
  | run =>
    rw [← reduceSums_forget plain supply fun position _ _ run => Nat.lt_of_lt_of_le run reached]
    exact answer

/-- The sum phase gives one result, success or stall, for either memory as long as the names handed
out to groups remembered for a scan are single letters. -/
theorem reduceSums_memory {expression : Text} (plain : ∀ c ∈ expression, IsPlain c) (supply : Supply)
    (single : ∀ position, supply.position ≤ position →
      position < supply.position + handedOut .scan expression supply → position < 25) :
    reduceSums .run expression supply = reduceSums .scan expression supply :=
  reduceSums_forget plain supply fun position above scan _ => single position above scan

/-- Five letters, the last of them included, are handed out before the run stalls. -/
theorem reduceSums_memory_stalled :
    (∀ c ∈ "(a+(a+b)*)*+((b+c)+(c+a))".toList, IsPlain c) ∧
      (∀ position, 20 ≤ position →
        position < 20 + handedOut .scan "(a+(a+b)*)*+((b+c)+(c+a))".toList ⟨20⟩ → position < 25) ∧
        reduceSums .run "(a+(a+b)*)*+((b+c)+(c+a))".toList ⟨20⟩ =
          reduceSums .scan "(a+(a+b)*)*+((b+c)+(c+a))".toList ⟨20⟩ := by
  have checked : "(a+(a+b)*)*+((b+c)+(c+a))".toList.all (fun c => !c.isUpper) = true := by decide
  have plain : ∀ c ∈ "(a+(a+b)*)*+((b+c)+(c+a))".toList, IsPlain c := fun c member => by
    simpa [IsPlain] using List.all_eq_true.mp checked c member
  have count : handedOut .scan "(a+(a+b)*)*+((b+c)+(c+a))".toList ⟨20⟩ = 5 := by decide +kernel
  have single : ∀ position, 20 ≤ position →
      position < 20 + handedOut .scan "(a+(a+b)*)*+((b+c)+(c+a))".toList ⟨20⟩ → position < 25 := by
    rw [count]
    omega
  exact ⟨plain, single, reduceSums_memory plain ⟨20⟩ single⟩

end SumStar
