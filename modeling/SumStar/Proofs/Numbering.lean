import Mathlib.Data.List.TakeWhile
import SumStar.Proofs.DerivationRuns
import SumStar.Proofs.GrammarLanguage
import SumStar.Proofs.SumTexts

/-! Both phases hand out symbols one after the other, and every symbol handed out heads a production.
The declared symbols of a grammar are therefore the first ones of the supply, and their number
tells whether all names are single letters. -/

namespace SumStar

open Text

theorem SumGroup.alternatives_ne_nil {group rest : Text} (stands : SumGroup.Piece group rest) :
    SumGroup.alternatives group ≠ [] := by
  have lettered : ∃ c ∈ group, isWord c = true := by
    cases stands with
    | @chain opening tail closing rest c _ word _ _ _ => exact ⟨c, by simp, word⟩
    | @single c rest word => exact ⟨c, by simp, word⟩
  obtain ⟨c, member, word⟩ := lettered
  intro none
  have empty : ∀ piece ∈ (withoutParentheses group).splitOn '+', piece = [] := by
    rw [SumGroup.alternatives, SumGroup.dropTrailingEmpty, List.reverse_eq_nil_iff, List.dropWhile_eq_nil_iff] at none
    exact fun piece inside => List.isEmpty_iff.mp (none piece (List.mem_reverse.mpr inside))
  have kept : c ∈ withoutParentheses group :=
    List.mem_filter.mpr ⟨member, by rw [not_isParenthesis_of_isWord word]; rfl⟩
  have whole : ['+'].intercalate ((withoutParentheses group).splitOn '+') = withoutParentheses group :=
    List.intercalate_splitOn '+'
  rw [← whole] at kept
  rcases mem_intercalate kept with plus | ⟨piece, inside, here⟩
  · exact ne_of_isWord word isWord_plus plus
  · rw [empty piece inside] at here
    cases here

/-- The heads of the productions are the symbols handed out. -/
def Numbered (productions : List Production) (supply : Supply) : Prop :=
  ∀ symbol, (∃ production ∈ productions, production.head = symbol) ↔
    ∃ position < supply.position, symbol = .nth position

theorem numbered_nil : Numbered [] {} := by
  intro symbol
  simp

theorem Numbered.append {productions : List Production} {supply : Supply} {bodies : List Text}
    (numbered : Numbered productions supply) (some : bodies ≠ []) :
    Numbered (productions ++ bodies.map (Production.mk supply.peek)) supply.advance := by
  intro symbol
  obtain ⟨first, others, rfl⟩ := List.exists_cons_of_ne_nil some
  constructor
  · intro ⟨production, member, same⟩
    rcases List.mem_append.mp member with old | new
    · obtain ⟨position, below, named⟩ := (numbered symbol).mp ⟨production, old, same⟩
      exact ⟨position, Nat.lt_succ_of_lt below, named⟩
    · obtain ⟨body, _, rfl⟩ := List.mem_map.mp new
      exact ⟨supply.position, Nat.lt_succ_self _, same.symm⟩
  · intro ⟨position, below, named⟩
    rcases Nat.lt_succ_iff_lt_or_eq.mp below with old | rfl
    · obtain ⟨production, member, same⟩ := (numbered symbol).mpr ⟨position, old, named⟩
      exact ⟨production, List.mem_append_left _ member, same⟩
    · exact ⟨⟨supply.peek, first⟩, by simp, named.symm⟩

theorem Numbered.apart {productions : List Production} {supply : Supply} (numbered : Numbered productions supply)
    (bodies : List Text) :
    ∀ one ∈ productions, ∀ other ∈ bodies.map (Production.mk supply.peek), one.head ≠ other.head := by
  intro one member other new same
  obtain ⟨body, _, rfl⟩ := List.mem_map.mp new
  obtain ⟨position, below, named⟩ := (numbered one.head).mp ⟨one, member, rfl⟩
  rw [same] at named
  exact Nat.ne_of_gt below (Symbol.nth.inj named)

namespace SumProgress

variable {memory : GroupMemory} {progress last : SumProgress} {group : Text} {scans : Nat}

theorem visit_cases (memory : GroupMemory) (progress : SumProgress) (group : Text) :
    progress.visit memory group = progress ∨
      (∃ symbol, progress.known.lookup group = some symbol ∧
        progress.visit memory group = progress.exchange group symbol) ∨
      progress.visit memory group = progress.introduce memory group := by
  unfold visit
  split
  · exact Or.inl rfl
  · cases found : progress.known.lookup group with
    | some symbol => exact Or.inr (Or.inl ⟨symbol, rfl, rfl⟩)
    | none => exact Or.inr (Or.inr rfl)

theorem emission_cases (memory : GroupMemory) (progress : SumProgress) (group : Text) :
    (progress.visit memory group).productions = progress.productions ∧
        (progress.visit memory group).supply = progress.supply ∨
      progress.visit memory group = progress.introduce memory group := by
  rcases visit_cases memory progress group with same | ⟨symbol, _, same⟩ | same
  · rw [same]
    exact Or.inl ⟨rfl, rfl⟩
  · rw [same]
    exact Or.inl ⟨rfl, rfl⟩
  · exact Or.inr same

theorem numbered_introduce (numbered : Numbered progress.productions progress.supply)
    (some : SumGroup.alternatives group ≠ []) :
    Numbered (progress.introduce memory group).productions (progress.introduce memory group).supply :=
  numbered.append some

theorem numbered_visit (numbered : Numbered progress.productions progress.supply)
    (some : SumGroup.alternatives group ≠ []) :
    Numbered (progress.visit memory group).productions (progress.visit memory group).supply := by
  rcases emission_cases memory progress group with ⟨productions, supply⟩ | same
  · rwa [productions, supply]
  · rw [same]
    exact numbered_introduce numbered some

theorem Settles.numbered (settles : Settles memory scans progress last)
    (numbered : Numbered progress.productions progress.supply) : Numbered last.productions last.supply :=
  settles.piece_invariant (fun state => Numbered state.productions state.supply)
    (fun here stands => numbered_visit here (SumGroup.alternatives_ne_nil stands)) numbered

theorem Settles.position_le (settles : Settles memory scans progress last) :
    progress.supply.position ≤ last.supply.position := by
  induction settles with
  | reduced _ => exact Nat.le_refl _
  | stalled _ _ => exact position_scan_le
  | step _ _ _ ih => exact Nat.le_trans position_scan_le ih

end SumProgress

namespace Reduction

variable {reduction : Reduction}

theorem position_foldl (groups : List Text) (reduction : Reduction) :
    (groups.foldl (visitStar .separate) reduction).supply.position = reduction.supply.position + groups.length := by
  induction groups generalizing reduction with
  | nil => rfl
  | cons group groups ih =>
    rw [List.foldl_cons, ih, List.length_cons, position_visitStar]
    omega

theorem position_reduceStars (expression : Text) (supply : Supply) :
    (reduceStars .separate expression supply).supply.position =
      supply.position + (StarGroup.findAll expression).eraseDups.length :=
  position_foldl _ ⟨expression, supply, []⟩

theorem numbered_visitStar {base : List Production} (numbered : Numbered (base ++ reduction.productions) reduction.supply)
    (group : Text) :
    Numbered (base ++ (reduction.visitStar .separate group).productions) (reduction.visitStar .separate group).supply := by
  have grown := numbered.append
    (List.cons_ne_nil (StarGroup.body group ++ reduction.supply.peek.name) [[]])
  rwa [List.append_assoc] at grown

theorem numbered_reduceStars {base : List Production} {supply : Supply} (numbered : Numbered base supply)
    (expression : Text) :
    Numbered (base ++ (reduceStars .separate expression supply).productions)
      (reduceStars .separate expression supply).supply := by
  have start : Numbered (base ++ []) supply := by rwa [List.append_nil]
  have visited : ∀ reduction : Reduction, Numbered (base ++ reduction.productions) reduction.supply →
      ∀ group ∈ StarGroup.findAll expression,
        Numbered (base ++ (reduction.visitStar .separate group).productions)
          (reduction.visitStar .separate group).supply :=
    fun _ here group _ => numbered_visitStar here group
  obtain ⟨scanned, kept, _, productions, supply⟩ := reduceStars_invariant _ start visited
  rw [productions, supply]
  exact kept

end Reduction

namespace Grammar

variable {terminals : Text} {sums stars : Reduction}

theorem mem_nonTerminals {symbol : Symbol} :
    symbol ∈ (assemble terminals sums stars).nonTerminals ↔
      ∃ production ∈ (assemble terminals sums stars).productions, production.head = symbol := by
  rw [assemble, List.mem_eraseDups, List.mem_map]
  rfl

theorem le_length_nonTerminals {count : Nat} (headed : ∀ position < count,
      ∃ production ∈ (assemble terminals sums stars).productions, production.head = .nth position) :
    count ≤ (assemble terminals sums stars).nonTerminals.length := by
  have distinct : ((List.range count).map Symbol.nth).Nodup :=
    List.nodup_range.map fun _ _ same => Symbol.nth.inj same
  have declared : ((List.range count).map Symbol.nth).length ≤
      (assemble terminals sums stars).nonTerminals.length := by
    apply distinct.length_le_of_subset
    intro symbol member
    obtain ⟨position, below, rfl⟩ := List.mem_map.mp member
    exact mem_nonTerminals.mpr (headed position (List.mem_range.mp below))
  simpa using declared

theorem position_le (numbered : Numbered (sums.productions ++ stars.productions) stars.supply) :
    stars.supply.position ≤ (assemble terminals sums stars).nonTerminals.length :=
  le_length_nonTerminals fun position below => (numbered _).mpr ⟨position, below, rfl⟩

theorem position_sums_le (numbered : Numbered sums.productions sums.supply) :
    sums.supply.position ≤ (assemble terminals sums stars).nonTerminals.length := by
  apply le_length_nonTerminals
  intro position below
  obtain ⟨production, member, same⟩ := (numbered _).mpr ⟨position, below, rfl⟩
  exact ⟨production, List.mem_append_left _ member, same⟩

theorem isShort_assemble {supply : Supply} (numbered : Numbered (sums.productions ++ stars.productions) supply)
    (few : supply.position ≤ 25) : (assemble terminals sums stars).IsShort := by
  refine ⟨fun symbol => mem_nonTerminals, ?_⟩
  intro symbol member
  obtain ⟨position, below, named⟩ := (numbered symbol).mp (mem_nonTerminals.mp member)
  exact ⟨position, by omega, named⟩

end Grammar

end SumStar
