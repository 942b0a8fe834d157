import SumStar.Proofs.FlatGroups
import SumStar.Proofs.JoinedSums
import SumStar.Proofs.Numbering

/-! The sum phase on flat expressions. As long as all names are single letters, every visit leaves a
flat expression that stands for the same as the first one, in every valuation that reads the
productions emitted so far. -/

namespace SumStar

open Text

/-- Letters that stand for texts of at least one character, whatever reads the productions. -/
def Solid (productions : List Production) (c : Char) : Prop :=
  c.isAlpha = true ∧ ∀ valuation : Valuation, valuation.Reads productions → [] ∉ valuation c

theorem Solid.isWord {productions : List Production} (c : Char) (solid : Solid productions c) : isWord c = true :=
  isWord_of_isAlpha solid.1

theorem IsSum.nil_notMem {productions : List Production} {words : List Text} (sum : IsSum (Solid productions) words)
    {valuation : Valuation} (reads : valuation.Reads productions) : [] ∉ valuation.sum words :=
  Valuation.nil_notMem_sum sum.present fun word member c inside => (sum.composed word member c inside).2 valuation reads

namespace Flat

section Joined

variable {known : Char → Prop} {words : List Text} {rest : Text} (wordly : ∀ c, known c → isWord c = true)

private theorem joined_cons {c : Char} (other : c ≠ '+') (joined : ∀ inside, Joined inside rest) (inside : Bool) :
    Joined inside (c :: rest) :=
  ⟨fun plus => False.elim (other plus), joined (isWord c)⟩

private theorem joined_append {word : Text} (own : IsWordly word) (joined : ∀ inside, Joined inside rest)
    (inside : Bool) : Joined inside (word ++ rest) := by
  cases word with
  | nil => exact joined inside
  | cons c word => exact Joined.append own (List.cons_ne_nil c word) (joined true) inside

include wordly

private theorem joined_flatMap (present : ∀ word ∈ words, word ≠ []) (composed : ∀ word ∈ words, ∀ c ∈ word, known c)
    (joined : ∀ inside, Joined inside rest) :
    Joined true ((words.flatMap fun word => '+' :: word) ++ rest) := by
  induction words with
  | nil => exact joined true
  | cons word words ih =>
    have later := ih (fun other member => present other (by simp [member]))
      (fun other member => composed other (by simp [member]))
    have own := isWordly_of_known wordly (composed word (by simp))
    have filled := present word (by simp)
    rw [List.flatMap_cons, List.append_assoc, List.cons_append]
    exact ⟨fun _ => ⟨rfl, head_append own filled _⟩, later.append own filled _⟩

theorem joined_sumText (sum : IsSum known words) (joined : ∀ inside, Joined inside rest) (inside : Bool) :
    Joined inside (sumText words ++ rest) := by
  obtain ⟨word, others, rfl⟩ := List.exists_cons_of_ne_nil sum.any
  have own := isWordly_of_known wordly (sum.composed word (by simp))
  have closing : ∀ inside, Joined inside (')' :: rest) := joined_cons (by decide) joined
  have present : ∀ other ∈ others, other ≠ [] := fun other member => sum.present other (by simp [member])
  have composed : ∀ other ∈ others, ∀ c ∈ other, known c := fun other member => sum.composed other (by simp [member])
  have later := joined_flatMap wordly present composed closing
  have opening : ∀ inside, Joined inside ('(' :: (word ++ _)) :=
    joined_cons (by decide) (later.append own (sum.present word (by simp)))
  simpa [sumText, intercalate_cons] using opening inside

theorem Tail.joined {tail : Tail} (composed : tail.Over known) (inside : Bool) : Joined inside tail.text := by
  induction tail generalizing inside with
  | last word =>
    have nothing : ∀ inside, Joined inside [] := fun _ => trivial
    have whole := joined_append (isWordly_of_known wordly composed) nothing inside
    rwa [List.append_nil] at whole
  | sum word words rest ih =>
    obtain ⟨letters, sum, _, behind⟩ := composed
    exact joined_append (isWordly_of_known wordly letters) (joined_sumText wordly sum (ih behind)) inside

theorem joined {flat : Flat} (composed : flat.Over known) (inside : Bool) : Joined inside flat.text := by
  obtain ⟨starred, tail⟩ := flat
  obtain ⟨pieces, behind⟩ := composed
  induction starred generalizing inside with
  | nil => exact Tail.joined wordly behind inside
  | cons piece starred ih =>
    have later := fun inside => ih inside (fun other member => pieces other (by simp [member])) behind
    have star : ∀ inside, Joined inside ('*' :: _) := joined_cons (by decide) later
    have own := pieces piece (by simp)
    cases piece with
    | letter c => exact joined_append (fun d member => List.mem_singleton.mp member ▸ wordly c own) star inside
    | sum words =>
      have whole := joined_sumText wordly own star inside
      simpa [text, Starred.text_sum] using whole

end Joined

end Flat

namespace SumProgress

variable {memory : GroupMemory} {progress last : SumProgress} {group : Text} {words : List Text}
  {groups : List Text} {start : Flat} {scans : Nat}

/-- The expression is flat and stands for the same as the one at the start, and remembered groups
have symbols that stand for their alternatives. -/
structure Faithful (start : Flat) (progress : SumProgress) : Prop where
  numbered : Numbered progress.productions progress.supply
  flat : ∃ flat : Flat, progress.expression = flat.text ∧ flat.Over (Solid progress.productions) ∧
    ∀ valuation : Valuation, valuation.Reads progress.productions → flat.meaning valuation = start.meaning valuation
  known : ∀ entry ∈ progress.known, ∃ position < progress.supply.position, entry.2 = .nth position ∧
    ∀ valuation : Valuation, valuation.Reads progress.productions →
      valuation.spell entry.2.name = valuation.sum (SumGroup.alternatives entry.1)

theorem faithful_initial (composed : start.Over fun c => c.isLower = true) : (initial start.text {}).Faithful start := by
  refine ⟨numbered_nil, ⟨start, rfl, ?_, fun _ _ => rfl⟩, by simp [initial]⟩
  apply composed.mono
  intro c lower
  refine ⟨isAlpha_of_isLower lower, ?_⟩
  intro valuation reads
  rw [reads.letter c lower]
  exact fun member => List.cons_ne_nil c [] (Set.mem_singleton_iff.mp member).symm

/-- An exchange of a group for a letter that stands for its alternatives. -/
private theorem Faithful.exchange {productions : List Production} {position : Nat} (faithful : progress.Faithful start)
    (found : Flat.IsGroup (Solid progress.productions) group words)
    (widened : ∀ c, Solid progress.productions c → Solid productions c)
    (narrowed : ∀ valuation : Valuation, valuation.Reads productions → valuation.Reads progress.productions)
    (below : position < 25) (stands : ∀ valuation : Valuation, valuation.Reads productions →
      valuation.spell (Symbol.nth position).name = valuation.sum words) :
    ∃ flat : Flat, (progress.exchange group (.nth position)).expression = flat.text ∧ flat.Over (Solid productions) ∧
      ∀ valuation : Valuation, valuation.Reads productions → flat.meaning valuation = start.meaning valuation := by
  obtain ⟨flat, written, composed, means⟩ := faithful.flat
  have named : (Symbol.nth position).name = [Symbol.letterAt position] := Symbol.nameAt_of_lt below
  simp only [named, Valuation.spell_singleton] at stands
  have sum := (found.mono widened).isSum
  have letter : Solid productions (Symbol.letterAt position) := by
    refine ⟨isAlpha_of_isUpper (Symbol.isUpper_letterAt position), ?_⟩
    intro valuation reads
    rw [stands valuation reads]
    exact sum.nil_notMem reads
  obtain ⟨changed, replaced, still, same⟩ :=
    (found.mono widened).exists_exchange Solid.isWord (composed.mono widened) letter
  refine ⟨changed, ?_, still, ?_⟩
  · rw [← replaced, ← written, ← named]
    rfl
  · intro valuation reads
    rw [same valuation (stands valuation reads), means valuation (narrowed valuation reads)]

theorem Faithful.introduce (faithful : progress.Faithful start)
    (found : Flat.IsGroup (Solid progress.productions) group words) (few : progress.supply.position < 25) :
    (progress.introduce memory group).Faithful start ∧
      ∀ c, Solid progress.productions c → Solid (progress.introduce memory group).productions c := by
  have alternatives : SumGroup.alternatives group = words := found.alternatives Solid.isWord
  have apart := faithful.numbered.apart (SumGroup.alternatives group)
  have narrowed : ∀ valuation : Valuation, valuation.Reads (progress.introduce memory group).productions →
      valuation.Reads progress.productions := fun valuation reads => reads.left apart
  have widened : ∀ c, Solid progress.productions c → Solid (progress.introduce memory group).productions c :=
    fun c solid => ⟨solid.1, fun valuation reads => solid.2 valuation (narrowed valuation reads)⟩
  have some : SumGroup.alternatives group ≠ [] := alternatives ▸ found.isSum.any
  have stands : ∀ valuation : Valuation, valuation.Reads (progress.introduce memory group).productions →
      valuation.spell (Symbol.nth progress.supply.position).name = valuation.sum (SumGroup.alternatives group) :=
    fun valuation reads => (reads.right apart).equation some
  refine ⟨⟨numbered_introduce faithful.numbered some, ?_, ?_⟩, widened⟩
  · exact faithful.exchange found widened narrowed few (alternatives ▸ stands)
  · have before : ∀ entry ∈ progress.known, ∃ position < (progress.introduce memory group).supply.position,
        entry.2 = .nth position ∧
          ∀ valuation : Valuation, valuation.Reads (progress.introduce memory group).productions →
            valuation.spell entry.2.name = valuation.sum (SumGroup.alternatives entry.1) := by
      intro entry member
      obtain ⟨position, below, named, same⟩ := faithful.known entry member
      exact ⟨position, Nat.lt_succ_of_lt below, named, fun valuation reads => same valuation (narrowed valuation reads)⟩
    intro entry member
    cases memory with
    | scan => exact before entry member
    | run =>
      rcases List.mem_cons.mp member with rfl | old
      · exact ⟨progress.supply.position, Nat.lt_succ_self _, rfl, stands⟩
      · exact before entry old

/-- A visit keeps the meaning, and letters that were solid stay so. -/
theorem Faithful.visit (faithful : progress.Faithful start)
    (found : Flat.IsGroup (Solid progress.productions) group words)
    (few : (progress.visit memory group).supply.position ≤ 25) :
    (progress.visit memory group).Faithful start ∧
      ∀ c, Solid progress.productions c → Solid (progress.visit memory group).productions c := by
  rcases visit_cases memory progress group with same | ⟨symbol, remembered, same⟩ | same
  · rw [same]
    exact ⟨faithful, fun c solid => solid⟩
  · rw [same] at few ⊢
    obtain ⟨position, below, named, stands⟩ := faithful.known _ (mem_of_lookup remembered)
    obtain rfl : symbol = .nth position := named
    refine ⟨⟨faithful.numbered, ?_, faithful.known⟩, fun c solid => solid⟩
    have first : position < 25 := Nat.lt_of_lt_of_le below few
    apply faithful.exchange found (fun c solid => solid) (fun valuation reads => reads) first
    rw [← found.alternatives Solid.isWord]
    exact stands
  · rw [same] at few ⊢
    exact faithful.introduce found few

theorem Faithful.foldl (faithful : progress.Faithful start)
    (found : ∀ group ∈ groups, ∃ words, Flat.IsGroup (Solid progress.productions) group words)
    (few : (groups.foldl (SumProgress.visit memory) progress).supply.position ≤ 25) :
    (groups.foldl (SumProgress.visit memory) progress).Faithful start := by
  induction groups generalizing progress with
  | nil => exact faithful
  | cons group groups ih =>
    obtain ⟨words, first⟩ := found group (by simp)
    obtain ⟨kept, widened⟩ := faithful.visit first (Nat.le_trans (position_foldl_le _ groups) few)
    apply ih kept _ few
    intro other member
    obtain ⟨words, later⟩ := found other (by simp [member])
    exact ⟨words, later.mono widened⟩

theorem Faithful.scan (faithful : progress.Faithful start) (few : (progress.scan memory).supply.position ≤ 25) :
    (progress.scan memory).Faithful start := by
  apply faithful.foldl _ few
  intro group member
  obtain ⟨flat, written, composed, _⟩ := faithful.flat
  rw [List.mem_eraseDups, written] at member
  exact Flat.isGroup_of_mem_findAll Solid.isWord composed member

theorem Faithful.settles (settles : Settles memory scans progress last) (faithful : progress.Faithful start)
    (few : last.supply.position ≤ 25) : last.Faithful start := by
  induction settles with
  | reduced _ => exact faithful
  | stalled _ _ => exact faithful.scan few
  | step _ _ rest ih => exact ih (faithful.scan (Nat.le_trans rest.position_le few)) few

end SumProgress

theorem reduceSums_flat {start : Flat} (composed : start.Over fun c => c.isLower = true) (memory : GroupMemory) :
    ∃ last : SumProgress, '+' ∉ last.expression ∧
      reduceSums memory start.text {} = .ok ⟨last.expression, last.supply, last.productions⟩ ∧
      Numbered last.productions last.supply ∧ (last.supply.position ≤ 25 → last.Faithful start) := by
  have wordly : ∀ c : Char, c.isLower = true → isWord c = true := fun c lower =>
    isWord_of_isAlpha (isAlpha_of_isLower lower)
  obtain ⟨scans, last, settles, absent, answer⟩ := reduceSums_of_joined (start.joined wordly composed false) memory {}
  have numbered := settles.numbered numbered_nil
  exact ⟨last, absent, answer, numbered, (SumProgress.faithful_initial composed).settles settles⟩

end SumStar
