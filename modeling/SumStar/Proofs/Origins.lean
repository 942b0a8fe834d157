import SumStar.Grammar.Unfolding
import SumStar.Proofs.SymbolLayers

/-! Every exchange of a derivation puts a symbol in for a text that is its origin but for parentheses.
So any way of writing characters out that drops parentheses and respects the origins writes all
expressions of a derivation out alike, from the source to the last one. -/

namespace SumStar

open Text

namespace Grammar

variable {symbol : Symbol} {productions first second sums stars : List Production} {bodies : List Text}

theorem bodiesOf_append (symbol : Symbol) (first second : List Production) :
    bodiesOf symbol (first ++ second) = bodiesOf symbol first ++ bodiesOf symbol second := by
  simp [bodiesOf]

theorem bodiesOf_eq_nil (absent : ∀ production ∈ productions, production.head ≠ symbol) :
    bodiesOf symbol productions = [] := by
  simpa [bodiesOf, List.filter_eq_nil_iff] using absent

theorem bodiesOf_ne_nil {production : Production} (member : production ∈ productions) :
    bodiesOf production.head productions ≠ [] := by
  have inside : production.body ∈ bodiesOf production.head productions :=
    List.mem_map.mpr ⟨production, List.mem_filter.mpr ⟨member, by simp⟩, rfl⟩
  exact List.ne_nil_of_mem inside

theorem bodiesOf_self (symbol : Symbol) (bodies : List Text) :
    bodiesOf symbol (bodies.map (Production.mk symbol)) = bodies := by
  simp [bodiesOf, List.filter_map, Function.comp_def]

theorem mem_of_mem_bodiesOf {body : Text} (member : body ∈ bodiesOf symbol productions) :
    ∃ production ∈ productions, production.head = symbol ∧ production.body = body := by
  obtain ⟨production, inside, same⟩ := List.mem_map.mp member
  obtain ⟨listed, headed⟩ := List.mem_filter.mp inside
  exact ⟨production, listed, of_decide_eq_true headed, same⟩

theorem origin_of_sum (some : bodiesOf symbol sums ≠ []) :
    origin sums stars symbol = ['+'].intercalate (bodiesOf symbol sums) := by
  unfold origin
  split
  next none => exact absurd none some
  next same => rw [same]

theorem origin_of_star {word : Text} (none : bodiesOf symbol sums = [])
    (repeated : bodiesOf symbol stars = [word ++ symbol.name, []]) : origin sums stars symbol = word ++ ['*'] := by
  simp [origin, none, repeated]

theorem origin_congr {otherSums otherStars : List Production}
    (sum : bodiesOf symbol sums = bodiesOf symbol otherSums)
    (star : bodiesOf symbol stars = bodiesOf symbol otherStars) :
    origin sums stars symbol = origin otherSums otherStars symbol := by
  simp only [origin, sum, star]

/-- A way of writing characters out that drops parentheses and writes each head as its origin. -/
structure WritesOut (expand : Char → Text) (sums stars : List Production) : Prop where
  parenthesis : ∀ c, isParenthesis c = true → expand c = []
  head : ∀ production ∈ sums ++ stars,
    production.head.name.flatMap expand = (origin sums stars production.head).flatMap expand

variable {expand : Char → Text} {group : Text}

theorem WritesOut.of_agree {otherSums otherStars : List Production} (writes : WritesOut expand sums stars)
    (agree : ∀ production ∈ otherSums ++ otherStars, production ∈ sums ++ stars ∧
      origin otherSums otherStars production.head = origin sums stars production.head) :
    WritesOut expand otherSums otherStars := by
  refine ⟨writes.parenthesis, ?_⟩
  intro production member
  obtain ⟨inside, same⟩ := agree production member
  rw [writes.head production inside, same]

theorem WritesOut.earlierSums (writes : WritesOut expand (sums ++ bodies.map (Production.mk symbol)) [])
    (apart : ∀ production ∈ sums, production.head ≠ symbol) : WritesOut expand sums [] := by
  apply writes.of_agree
  intro production member
  rw [List.append_nil] at member
  have other : bodiesOf production.head (bodies.map (Production.mk symbol)) = [] := bodiesOf_eq_nil fun later new => by
    obtain ⟨body, _, rfl⟩ := List.mem_map.mp new
    exact (apart production member).symm
  refine ⟨List.mem_append_left _ (List.mem_append_left _ member), origin_congr ?_ rfl⟩
  rw [bodiesOf_append, other, List.append_nil]

theorem WritesOut.earlierStars (writes : WritesOut expand sums (stars ++ bodies.map (Production.mk symbol)))
    (apart : ∀ production ∈ sums ++ stars, production.head ≠ symbol) : WritesOut expand sums stars := by
  apply writes.of_agree
  intro production member
  have other : bodiesOf production.head (bodies.map (Production.mk symbol)) = [] := bodiesOf_eq_nil fun later new => by
    obtain ⟨body, _, rfl⟩ := List.mem_map.mp new
    exact (apart production member).symm
  refine ⟨?_, origin_congr rfl ?_⟩
  · rw [← List.append_assoc]
    exact List.mem_append_left _ member
  · rw [bodiesOf_append, other, List.append_nil]

theorem WritesOut.flatMap_name (writes : WritesOut expand sums stars)
    (headed : ∃ production ∈ sums ++ stars, production.head = symbol)
    (stripped : origin sums stars symbol = withoutParentheses group) :
    symbol.name.flatMap expand = group.flatMap expand := by
  obtain ⟨production, member, rfl⟩ := headed
  rw [writes.head production member, stripped, flatMap_withoutParentheses writes.parenthesis]

end Grammar

open Grammar

namespace SumProgress

variable {memory : GroupMemory} {progress last : SumProgress} {start group : Text} {scans : Nat}

/-- The expression and the remembered groups are written out like the expression at the start and
the symbols they were exchanged for. -/
structure Undone (start : Text) (progress : SumProgress) : Prop where
  listed : Listed progress.productions progress.supply.position
  apart : ¬ [')', '+'] <:+: progress.expression
  expression : ∀ expand, WritesOut expand progress.productions [] →
    progress.expression.flatMap expand = start.flatMap expand
  known : ∀ entry ∈ progress.known, ∀ expand, WritesOut expand progress.productions [] →
    entry.2.name.flatMap expand = entry.1.flatMap expand

/-- A group that its alternatives give back. -/
structure Splits (group : Text) : Prop where
  present : group ≠ []
  some : SumGroup.alternatives group ≠ []
  joined : ['+'].intercalate (SumGroup.alternatives group) = withoutParentheses group

theorem undone_initial {expression : Text} (apart : ¬ [')', '+'] <:+: expression) :
    (initial expression {}).Undone expression where
  listed := .nil
  apart := apart
  expression := fun _ _ => rfl
  known := by simp [initial]

theorem Undone.splits (undone : progress.Undone start) : ∀ group ∈ progress.found, Splits group := by
  intro group member
  have found := List.mem_eraseDups.mp member
  obtain ⟨rest, stands⟩ := SumGroup.exists_piece_of_mem_findAll found
  have apart : ¬ [')', '+'] <:+: group := fun inside =>
    undone.apart (inside.trans (SumGroup.infix_of_mem_findAll found))
  exact ⟨SumGroup.ne_nil_of_mem_findAll found, SumGroup.alternatives_ne_nil stands,
    SumGroup.intercalate_alternatives stands apart⟩

theorem apart_exchange (apart : ¬ [')', '+'] <:+: progress.expression) (present : group ≠ []) (symbol : Symbol) :
    ¬ [')', '+'] <:+: (progress.exchange group symbol).expression := by
  intro inside
  have gaps : ∀ c ∈ [')', '+'], isWord c = false := by simp [isWord_plus, isWord_closing]
  have foreign : ∀ c ∈ [')', '+'], c ∉ symbol.name := fun c member => symbol.isWordly_name.notMem (gaps c member)
  exact apart (infix_of_infix_replaceAll present symbol.name_ne_nil foreign (List.cons_ne_nil _ _) inside)

theorem Undone.introduce (undone : progress.Undone start) (splits : Splits group) :
    (progress.introduce memory group).Undone start := by
  have fresh : ∀ production ∈ progress.productions, production.head ≠ progress.supply.peek := undone.listed.fresh
  have narrowed : ∀ expand, WritesOut expand (progress.introduce memory group).productions [] →
      WritesOut expand progress.productions [] := fun expand writes => writes.earlierSums fresh
  have stripped : origin (progress.introduce memory group).productions [] progress.supply.peek =
      withoutParentheses group := by
    have bodies : bodiesOf progress.supply.peek (progress.introduce memory group).productions =
        SumGroup.alternatives group := by
      change bodiesOf _ (progress.productions ++ (SumGroup.alternatives group).map (Production.mk progress.supply.peek)) = _
      rw [bodiesOf_append, bodiesOf_eq_nil fresh, bodiesOf_self, List.nil_append]
    rw [origin_of_sum (bodies ▸ splits.some), bodies, splits.joined]
  have headed : ∃ production ∈ (progress.introduce memory group).productions ++ [],
      production.head = progress.supply.peek := by
    obtain ⟨first, others, same⟩ := List.exists_cons_of_ne_nil splits.some
    refine ⟨⟨progress.supply.peek, first⟩, ?_, rfl⟩
    rw [List.append_nil]
    exact List.mem_append_right _ (List.mem_map.mpr ⟨first, by simp [same], rfl⟩)
  have named : ∀ expand, WritesOut expand (progress.introduce memory group).productions [] →
      progress.supply.peek.name.flatMap expand = group.flatMap expand :=
    fun expand writes => writes.flatMap_name headed stripped
  refine ⟨undone.listed.append splits.some, apart_exchange undone.apart splits.present _, ?_, ?_⟩
  · intro expand writes
    rw [← undone.expression expand (narrowed expand writes)]
    exact flatMap_replaceAll splits.present (named expand writes) progress.expression
  · intro entry member expand writes
    cases memory with
    | scan => exact undone.known entry member expand (narrowed expand writes)
    | run =>
      rcases List.mem_cons.mp member with rfl | old
      · exact named expand writes
      · exact undone.known entry old expand (narrowed expand writes)

theorem Undone.visit (undone : progress.Undone start) (splits : Splits group) :
    (progress.visit memory group).Undone start := by
  rcases visit_cases memory progress group with same | ⟨symbol, remembered, same⟩ | same
  · rw [same]
    exact undone
  · rw [same]
    refine ⟨undone.listed, apart_exchange undone.apart splits.present symbol, ?_, undone.known⟩
    intro expand writes
    rw [← undone.expression expand writes]
    have named := undone.known _ (mem_of_lookup remembered) expand writes
    exact flatMap_replaceAll splits.present named progress.expression
  · rw [same]
    exact undone.introduce splits

theorem Settles.undone (settles : Settles memory scans progress last) (undone : progress.Undone start) :
    last.Undone start := by
  have visited : ∀ progress group, Undone start progress → Splits group →
      (progress.visit memory group).Undone start ∧ ∀ other, Splits other → Splits other :=
    fun _ _ here splits => ⟨here.visit splits, fun _ later => later⟩
  exact settles.invariant visited undone fun _ here => here.splits

end SumProgress

namespace Reduction

variable {sums : List Production} {reduction : Reduction} {start group word : Text}

structure Undone (sums : List Production) (start : Text) (reduction : Reduction) : Prop where
  listed : Listed (sums ++ reduction.productions) reduction.supply.position
  expression : ∀ expand, WritesOut expand sums reduction.productions →
    reduction.expression.flatMap expand = start.flatMap expand

theorem Undone.visitStar (undone : reduction.Undone sums start) (stands : StarGroup.Piece group word) :
    (reduction.visitStar .separate group).Undone sums start := by
  have fresh : ∀ production ∈ sums ++ reduction.productions, production.head ≠ reduction.supply.peek :=
    undone.listed.fresh
  have grown : (reduction.visitStar .separate group).productions = reduction.productions ++
      [word ++ reduction.supply.peek.name, []].map (Production.mk reduction.supply.peek) := by
    rw [← stands.body_eq]
    rfl
  have stripped : origin sums (reduction.visitStar .separate group).productions reduction.supply.peek =
      withoutParentheses group := by
    rw [stands.withoutParentheses, grown]
    apply origin_of_star
    · exact bodiesOf_eq_nil fun production member => fresh production (List.mem_append_left _ member)
    · rw [bodiesOf_append, bodiesOf_self,
        bodiesOf_eq_nil fun production member => fresh production (List.mem_append_right _ member), List.nil_append]
  have headed : ∃ production ∈ sums ++ (reduction.visitStar .separate group).productions,
      production.head = reduction.supply.peek := by
    refine ⟨⟨reduction.supply.peek, []⟩, ?_, rfl⟩
    rw [grown]
    simp
  constructor
  case listed =>
    rw [grown, ← List.append_assoc]
    exact undone.listed.append (List.cons_ne_nil _ _)
  case expression =>
    intro expand writes
    have narrowed : WritesOut expand sums reduction.productions := (grown ▸ writes).earlierStars fresh
    rw [← undone.expression expand narrowed]
    exact flatMap_replaceAll stands.ne_nil (writes.flatMap_name headed stripped) reduction.expression

end Reduction

namespace Grammar

variable {memory : GroupMemory} {content : Text} {source : Source} {grammar : Grammar}

/-- With a symbol of its own for each group, a derived grammar is written out like its source by
whatever respects the origins of its symbols. -/
theorem flatMap_expression_of_derive (read : Source.ofText content = .ok source)
    (apart : ¬ [')', '+'] <:+: source.expression) (derived : derive ⟨memory, .separate⟩ content = .ok grammar)
    {expand : Char → Text} (writes : WritesOut expand grammar.sumProductions grammar.starProductions) :
    grammar.expression.flatMap expand = source.expression.flatMap expand := by
  obtain ⟨sums, reduced, rfl⟩ := exists_reduceSums_of_derive read derived
  obtain ⟨scans, last, settles, rfl⟩ := exists_settles_of_reduceSums reduced
  have first := settles.undone (SumProgress.undone_initial apart)
  have start : Reduction.Undone last.productions source.expression ⟨last.expression, last.supply, []⟩ :=
    ⟨by rw [List.append_nil]; exact first.listed, first.expression⟩
  have visited : ∀ reduction, Reduction.Undone last.productions source.expression reduction →
      ∀ group ∈ StarGroup.findAll last.expression,
        (reduction.visitStar .separate group).Undone last.productions source.expression := by
    intro reduction undone group member
    obtain ⟨word, stands⟩ := StarGroup.exists_piece_of_mem_findAll member
    exact undone.visitStar stands
  obtain ⟨scanned, undone, expression, productions, _⟩ := reduceStars_invariant _ start visited
  have same : (reduceStars .separate last.expression last.supply).expression.flatMap expand =
      source.expression.flatMap expand := by
    rw [expression]
    apply undone.expression
    rw [← productions]
    exact writes
  exact same

end Grammar

end SumStar
