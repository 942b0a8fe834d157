import Mathlib.Logic.Function.Basic
import SumStar.Proofs.NestedGroups

/-! Groups of words in a nested expression give way to letters. An exchange of the text of such a
group exchanges the group wherever it stands in the tree and nothing else, because the letters put
in before are foreign to it. When all groups of words have gone the expression is one level lower. -/

namespace SumStar

open Text

/-- Letters that stand for sums of known letters and are not known themselves. -/
structure IsNaming (known : Char → Prop) (names : List Text → Option Char) : Prop where
  sum : ∀ {words c}, names words = some c → IsSum known words
  fresh : ∀ {words c}, names words = some c → ¬ known c
  word : ∀ {words c}, names words = some c → isWord c = true

theorem isNaming_none (known : Char → Prop) : IsNaming known fun _ => none :=
  ⟨by simp, by simp, by simp⟩

theorem IsNaming.update {known : Char → Prop} {names : List Text → Option Char} (naming : IsNaming known names)
    {target : List Text} {c : Char} (sum : IsSum known target) (fresh : ¬ known c) (word : isWord c = true) :
    IsNaming known (Function.update names target (some c)) := by
  have cases : ∀ {words d}, Function.update names target (some c) words = some d →
      words = target ∧ d = c ∨ names words = some d := by
    intro words d found
    by_cases same : words = target
    · rw [same, Function.update_self] at found
      exact Or.inl ⟨same, (Option.some.inj found).symm⟩
    · rw [Function.update_of_ne same] at found
      exact Or.inr found
  constructor
  · intro words d found
    rcases cases found with ⟨rfl, _⟩ | old
    · exact sum
    · exact naming.sum old
  · intro words d found
    rcases cases found with ⟨_, rfl⟩ | old
    · exact fresh
    · exact naming.fresh old
  · intro words d found
    rcases cases found with ⟨_, rfl⟩ | old
    · exact word
    · exact naming.word old

/-- The first parenthesis of a text stands at one place. -/
theorem Text.eq_of_first_parenthesis {before front rest behind : Text} {c d : Char}
    (plain : ∀ e ∈ before, isParenthesis e = false) (other : ∀ e ∈ front, isParenthesis e = false)
    (here : isParenthesis c = true) (there : isParenthesis d = true)
    (same : before ++ c :: rest = front ++ d :: behind) : before = front ∧ c = d := by
  induction before generalizing front with
  | nil =>
    cases front with
    | nil => exact ⟨rfl, (List.cons.inj same).1⟩
    | cons e front =>
      rw [(List.cons.inj same).1, other e (by simp)] at here
      cases here
  | cons e before ih =>
    cases front with
    | nil =>
      rw [← (List.cons.inj same).1, plain e (by simp)] at there
      cases there
    | cons f front =>
      obtain ⟨first, later⟩ := List.cons.inj same
      obtain ⟨fronts, signs⟩ := ih (fun g member => plain g (by simp [member]))
        (fun g member => other g (by simp [member])) later
      exact ⟨by rw [first, fronts], signs⟩

namespace Nested

variable {grade : Grade} {tree : Nested grade} {known wider : Char → Prop} {names : List Text → Option Char}
  {valuation : Valuation} {target : List Text} {c : Char}

def exchange {grade : Grade} (names : List Text → Option Char) : Nested grade → Nested grade
  | letter c => letter c
  | group inner => (names inner.summands).elim (group (inner.exchange names)) letter
  | factor only => factor (only.exchange names)
  | times first others => times (first.exchange names) (others.exchange names)
  | plus first others => plus (first.exchange names) (others.exchange names)
  | term only => term (only.exchange names)
  | several inner => several (inner.exchange names)

theorem exchange_group_some {inner : Nested .several} (named : names inner.summands = some c) :
    (group inner).exchange names = letter c := by
  rw [exchange, named]
  rfl

theorem exchange_group_none {inner : Nested .several} (unnamed : names inner.summands = none) :
    (group inner).exchange names = group (inner.exchange names) := by
  rw [exchange, unnamed]
  rfl

theorem exchange_none (tree : Nested grade) : tree.exchange (fun _ => none) = tree := by
  induction tree with
  | letter c => rfl
  | group inner ih => rw [exchange_group_none rfl, ih]
  | factor only ih => rw [exchange, ih]
  | times first others one other => rw [exchange, one, other]
  | plus first others one other => rw [exchange, one, other]
  | term only ih => rw [exchange, ih]
  | several inner ih => rw [exchange, ih]

/-- Letters do not give way. -/
theorem exchange_of_flat (flat : tree.depth = 0) : tree.exchange names = tree := by
  induction tree with
  | letter c => rfl
  | group inner _ => cases flat
  | factor only ih => rw [exchange, ih flat]
  | times first others one other =>
    obtain ⟨left, right⟩ := Nat.max_eq_zero_iff.mp flat
    rw [exchange, one left, other right]
  | plus first others one other =>
    obtain ⟨left, right⟩ := Nat.max_eq_zero_iff.mp flat
    rw [exchange, one left, other right]
  | term only ih => rw [exchange, ih flat]
  | several inner ih => rw [exchange, ih flat]

theorem Over.exchange (made : tree.Over known) (widened : ∀ c, known c → wider c)
    (named : ∀ words c, names words = some c → wider c) : (tree.exchange names).Over wider := by
  induction tree with
  | letter c => exact widened c made
  | group inner ih =>
    cases found : names inner.summands with
    | some c =>
      rw [exchange_group_some found]
      exact named _ c found
    | none =>
      rw [exchange_group_none found]
      exact ih made
  | factor only ih => exact ih made
  | times first others one other => exact ⟨one made.1, other made.2⟩
  | plus first others one other => exact ⟨one made.1, other made.2⟩
  | term only ih => exact ih made
  | several inner ih => exact ih made

/-- If no name has been put in, nothing was exchanged. -/
theorem exchange_eq_self (unnamed : ∀ c ∈ (tree.exchange names).text, ∀ words, names words ≠ some c) :
    tree.exchange names = tree := by
  induction tree with
  | letter c => rfl
  | group inner ih =>
    cases found : names inner.summands with
    | some c =>
      rw [exchange_group_some found] at unnamed
      exact False.elim (unnamed c (List.mem_singleton_self c) _ found)
    | none =>
      rw [exchange_group_none found] at unnamed ⊢
      rw [ih fun c member => unnamed c (List.mem_cons_of_mem _ (List.mem_append_left _ member))]
  | factor only ih => rw [exchange, ih unnamed]
  | times first others one other =>
    rw [exchange, one fun c member => unnamed c (List.mem_append_left _ member),
      other fun c member => unnamed c (List.mem_append_right _ member)]
  | plus first others one other =>
    rw [exchange, one fun c member => unnamed c (List.mem_append_left _ member),
      other fun c member => unnamed c (List.mem_append_right _ (List.mem_cons_of_mem _ member))]
  | term only ih => rw [exchange, ih unnamed]
  | several inner ih => rw [exchange, ih unnamed]

private theorem replaceAll_gap {d : Char} (other : d ≠ '(') (rest : Text) :
    replaceAll (sumText target) [c] (d :: rest) = d :: replaceAll (sumText target) [c] rest := by
  have foreign : '(' ∉ [d] := fun member => other (List.mem_singleton.mp member).symm
  exact replaceAll_append_of_notMem foreign rest

section Texts

variable (wordly : ∀ c, known c → isWord c = true)
include wordly

theorem eq_summands_of_intercalate {inner : Nested .several} (made : inner.Over known) (sum : IsSum known target)
    (same : ['+'].intercalate target = inner.text) : inner.summands = target := by
  have absent : '(' ∉ inner.text := same ▸ sum.notMem wordly isWord_opening (by decide)
  have own : IsSum known inner.summands := isSum_of_flat made (depth_eq_zero (Or.inl rfl) absent)
  rw [text_eq_intercalate] at same
  rw [← own.splitOn wordly, ← same, sum.splitOn wordly]

variable (naming : IsNaming known names)
include naming

/-- Where a sum of known letters stands, nothing was exchanged. -/
theorem eq_summands_of_front {inner : Nested .several} (made : inner.Over known) (sum : IsSum known target)
    {rest : Text} (front : sumText target <+: (group (inner.exchange names)).text ++ rest) :
    inner.summands = target := by
  obtain ⟨behind, same⟩ := front
  simp only [sumText, text, List.cons_append, List.append_assoc, List.nil_append, List.cons.injEq, true_and] at same
  have words : (inner.exchange names).Over fun c => isWord c = true := made.exchange wordly fun _ c => naming.word
  rcases parentheses_text words with free | ⟨before, after, opened, first⟩
  · obtain ⟨texts, _⟩ := eq_of_first_parenthesis (sum.plain wordly) free rfl rfl same
    have kept : inner.exchange names = inner := by
      apply exchange_eq_self
      intro c member words named
      rw [← texts] at member
      rcases mem_intercalate member with rfl | ⟨word, inside, here⟩
      · exact absurd (naming.word named) (by decide)
      · exact naming.fresh named (sum.composed word inside c here)
    exact eq_summands_of_intercalate wordly made sum (kept ▸ texts)
  · rw [opened, List.append_assoc, List.cons_append] at same
    exact absurd (eq_of_first_parenthesis (sum.plain wordly) first rfl rfl same).2 (by decide)

/-- An exchange of the text of a sum of known letters exchanges the sum in the tree. -/
theorem replaceAll_exchange (made : tree.Over known) (sum : IsSum known target) (unnamed : names target = none)
    (c : Char) (rest : Text) :
    replaceAll (sumText target) [c] ((tree.exchange names).text ++ rest) =
      (tree.exchange (Function.update names target (some c))).text ++ replaceAll (sumText target) [c] rest := by
  induction tree generalizing rest with
  | letter d =>
    exact replaceAll_gap (ne_of_isWord (wordly d made) isWord_opening) rest
  | group inner ih =>
    by_cases same : inner.summands = target
    · have absent : '(' ∉ inner.text := by
        rw [text_eq_intercalate, same]
        exact sum.notMem wordly isWord_opening (by decide)
      have updated : Function.update names target (some c) inner.summands = some c := by
        rw [same, Function.update_self]
      rw [exchange_group_some updated, exchange_group_none (same ▸ unnamed), exchange_of_flat (depth_eq_zero (Or.inl rfl) absent),
        text_group, same, replaceAll_append_of_ne_nil (sumText_ne_nil target)]
      rfl
    · have kept : Function.update names target (some c) inner.summands = names inner.summands :=
        Function.update_of_ne same _ _
      cases found : names inner.summands with
      | some d =>
        rw [exchange_group_some found, exchange_group_some (kept.trans found)]
        exact replaceAll_gap (ne_of_isWord (naming.word found) isWord_opening) rest
      | none =>
        have absent : ¬ sumText target <+: (group (inner.exchange names)).text ++ rest := fun front =>
          same (eq_summands_of_front wordly naming made sum front)
        rw [exchange_group_none found, exchange_group_none (kept.trans found)]
        rw [text, List.cons_append, List.append_assoc, List.singleton_append] at absent ⊢
        rw [replaceAll_cons_of_absent absent, ih made, replaceAll_gap (by decide)]
        simp [text]
  | factor only ih => exact ih made rest
  | times first others one other =>
    rw [exchange, text, List.append_assoc, one made.1, other made.2, ← List.append_assoc]
    rfl
  | plus first others one other =>
    rw [exchange, text, List.append_assoc, List.cons_append, one made.1, replaceAll_gap (by decide), other made.2]
    simp [exchange, text]
  | term only ih => exact ih made rest
  | several inner ih => exact ih made rest

theorem flat_of_named {inner : Nested .several} (named : names inner.summands = some c) : inner.depth = 0 := by
  apply depth_eq_zero (Or.inl rfl)
  rw [text_eq_intercalate]
  exact (naming.sum named).notMem wordly isWord_opening (by decide)

/-- Letters that stand for their sums do not change the meaning. -/
theorem meaning_exchange (stands : ∀ words c, names words = some c → valuation c = valuation.sum words)
    (tree : Nested grade) : (tree.exchange names).meaning valuation = tree.meaning valuation := by
  induction tree with
  | letter c => rfl
  | group inner ih =>
    cases found : names inner.summands with
    | some c =>
      rw [exchange_group_some found, meaning, meaning, stands _ c found,
        meaning_of_flat (flat_of_named wordly naming found)]
    | none => rw [exchange_group_none found, meaning, meaning, ih]
  | factor only ih => rw [exchange, meaning, meaning, ih]
  | times first others one other => rw [exchange, meaning, meaning, one, other]
  | plus first others one other => rw [exchange, meaning, meaning, one, other]
  | term only ih => rw [exchange, meaning, meaning, ih]
  | several inner ih => rw [exchange, meaning, meaning, ih]

section Total

variable (total : ∀ words ∈ tree.flats, ∃ c, names words = some c)

theorem exists_name_or_deep {inner : Nested .several} (all : ∀ words ∈ (group inner).flats, ∃ c, names words = some c) :
    (∃ c, names inner.summands = some c ∧ inner.depth = 0) ∨
      names inner.summands = none ∧ 0 < inner.depth ∧ ∀ words ∈ inner.flats, ∃ c, names words = some c := by
  by_cases flat : inner.depth = 0
  · rw [flats, if_pos flat] at all
    obtain ⟨c, named⟩ := all _ (List.mem_singleton_self _)
    exact Or.inl ⟨c, named, flat⟩
  · rw [flats, if_neg flat] at all
    cases found : names inner.summands with
    | some c => exact False.elim (flat (flat_of_named wordly naming found))
    | none => exact Or.inr ⟨rfl, Nat.pos_of_ne_zero flat, all⟩

include total

theorem depth_exchange : (tree.exchange names).depth = tree.depth - 1 := by
  induction tree with
  | letter c => rfl
  | group inner ih =>
    rcases exists_name_or_deep wordly naming total with ⟨c, named, flat⟩ | ⟨unnamed, deep, rest⟩
    · rw [exchange_group_some named, depth, depth, flat]
    · rw [exchange_group_none unnamed, depth, depth, ih rest]
      omega
  | factor only ih => exact ih total
  | times first others one other =>
    rw [exchange, depth, depth, one fun words member => total words (List.mem_append_left _ member),
      other fun words member => total words (List.mem_append_right _ member)]
    omega
  | plus first others one other =>
    rw [exchange, depth, depth, one fun words member => total words (List.mem_append_left _ member),
      other fun words member => total words (List.mem_append_right _ member)]
    omega
  | term only ih => exact ih total
  | several inner ih => exact ih total

theorem depths_exchange : (tree.exchange names).depths = tree.depths.map (· - 1) := by
  induction tree with
  | letter c => rfl
  | group inner _ =>
    rcases exists_name_or_deep wordly naming total with ⟨c, named, flat⟩ | ⟨unnamed, deep, rest⟩
    · rw [exchange_group_some named, depths, depths, flat]
      rfl
    · have kept : inner.depth - 1 + 1 = inner.depth + 1 - 1 := by omega
      rw [exchange_group_none unnamed, depths, depths, depth_exchange wordly naming rest, kept]
      rfl
  | factor only ih => exact ih total
  | times first others one other =>
    rw [exchange, depths, depths, one fun words member => total words (List.mem_append_left _ member),
      other fun words member => total words (List.mem_append_right _ member), List.map_append]
  | plus first others one other =>
    rw [exchange, depths, depths, one fun words member => total words (List.mem_append_left _ member),
      other fun words member => total words (List.mem_append_right _ member), List.map_append]
  | term only ih => exact ih total
  | several inner ih => exact ih total

theorem levelGroups_exchange (level : tree.LevelGroups) : (tree.exchange names).LevelGroups := by
  induction tree with
  | letter c => trivial
  | group inner ih =>
    rcases exists_name_or_deep wordly naming total with ⟨c, named, flat⟩ | ⟨unnamed, deep, rest⟩
    · rw [exchange_group_some named]
      trivial
    · rw [exchange_group_none unnamed]
      refine ⟨ih rest level.1, ?_⟩
      rw [depth_exchange wordly naming rest, depths_exchange wordly naming rest]
      exact level.2.lower
  | factor only ih => exact ih total level
  | times first others one other =>
    exact ⟨one (fun words member => total words (List.mem_append_left _ member)) level.1,
      other (fun words member => total words (List.mem_append_right _ member)) level.2⟩
  | plus first others one other =>
    exact ⟨one (fun words member => total words (List.mem_append_left _ member)) level.1,
      other (fun words member => total words (List.mem_append_right _ member)) level.2⟩
  | term only ih => exact ih total level
  | several inner ih => exact ih total level

theorem IsLevel.exchange (level : tree.IsLevel) : (tree.exchange names).IsLevel := by
  refine ⟨levelGroups_exchange wordly naming total level.1, ?_⟩
  rw [depth_exchange wordly naming total, depths_exchange wordly naming total]
  exact level.2.lower

end Total

/-- A sum without a name stays where it is. -/
theorem infix_exchange (unnamed : names target = none) (found : target ∈ tree.flats) :
    sumText target <:+: (tree.exchange names).text := by
  induction tree with
  | letter c => cases found
  | group inner ih =>
    by_cases flat : inner.depth = 0
    · rw [flats, if_pos flat, List.mem_singleton] at found
      rw [exchange_group_none (found ▸ unnamed), exchange_of_flat flat, text_group, found]
    · rw [flats, if_neg flat] at found
      cases named : names inner.summands with
      | some c => exact False.elim (flat (flat_of_named wordly naming named))
      | none =>
        rw [exchange_group_none named]
        exact List.infix_cons ((ih found).trans (List.prefix_append _ _).isInfix)
  | factor only ih => exact ih found
  | times first others one other =>
    rcases List.mem_append.mp found with left | right
    · exact (one left).trans (List.prefix_append _ _).isInfix
    · exact (other right).trans (List.suffix_append _ _).isInfix
  | plus first others one other =>
    rcases List.mem_append.mp found with left | right
    · exact (one left).trans (List.prefix_append _ _).isInfix
    · exact (List.infix_cons (other right)).trans (List.suffix_append _ _).isInfix
  | term only ih => exact ih found
  | several inner ih => exact ih found

end Texts

end Nested
end SumStar
