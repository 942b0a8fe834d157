import SumStar.Matching.Acceptance
import SumStar.Pattern.Language
import SumStar.Proofs.SpanExtension

/-! The spans that a node of a pattern reaches are the extensions over its language, for every
node and every text. Repetition is the only case with a loop: what has been seen is closed under
extension except at the frontier, and the frontier moves on with every round. -/

namespace SumStar

open Computability Relation

/-- The answer lists the spans that extend one of the given spans over the language, and it lists
none of them twice unless the given ones repeat themselves. -/
def SpanStep.Exact (text : Text) (language : Language Char) (step : SpanStep) : Prop :=
  ∀ spans, (∀ span ∈ spans, span.Inside text) →
    ∃ reached, step spans = .ok reached ∧ (spans.Nodup → reached.Nodup) ∧
      ∀ span, span ∈ reached ↔ ∃ origin ∈ spans, Span.Extends text language origin span

variable {text : Text} {language : Language Char} {step : SpanStep} {spans : List Span}

theorem Span.mem_merge {first second : List Span} {span : Span} :
    span ∈ Span.merge first second ↔ span ∈ first ∨ span ∈ second := by
  simp only [Span.merge, List.mem_append, List.mem_filter, Bool.not_eq_true', List.contains_eq_mem,
    decide_eq_false_iff_not]
  by_cases known : span ∈ first <;> simp [known]

theorem Span.nodup_merge {first second : List Span} (here : first.Nodup) (there : second.Nodup) :
    (Span.merge first second).Nodup := by
  refine List.nodup_append.mpr ⟨here, there.filter _, ?_⟩
  intro span known other member same
  subst same
  simp [known] at member

namespace Worklist

/-- What holds after a number of rounds. The frontier has moved at least as many places beyond
the lowest end, because a span that stays where it is was seen before. -/
structure Closing (text : Text) (language : Language Char) (spans : List Span)
    (lowest rounds : Nat) (worklist : Worklist) : Prop where
  given : ∀ span ∈ spans, span ∈ worklist.seen
  found : ∀ span ∈ worklist.seen, ∃ origin ∈ spans, ReflTransGen (Span.Extends text language) origin span
  inside : ∀ span ∈ worklist.seen, span.Inside text
  noted : ∀ span ∈ worklist.frontier, span ∈ worklist.seen
  closed : ∀ span ∈ worklist.seen, span ∉ worklist.frontier →
    ∀ next, Span.Extends text language span next → next ∈ worklist.seen
  ahead : ∀ span ∈ worklist.frontier, lowest + rounds ≤ span.stop
  distinct : spans.Nodup → worklist.seen.Nodup ∧ worklist.frontier.Nodup

theorem closing_initial {lowest : Nat} (inside : ∀ span ∈ spans, span.Inside text)
    (low : ∀ span ∈ spans, lowest ≤ span.stop) :
    Closing text language spans lowest 0 (initial spans) where
  given := fun _ member => member
  found := fun span member => ⟨span, member, .refl⟩
  inside := inside
  noted := fun _ member => member
  closed := fun _ member absent => False.elim (absent member)
  ahead := low
  distinct := fun once => ⟨once, once⟩

/-- One round keeps the worklist closed behind the new frontier. -/
theorem Closing.round {lowest rounds : Nat} {worklist : Worklist}
    (closing : Closing text language spans lowest rounds worklist)
    (exactly : SpanStep.Exact text language step) :
    ∃ next, worklist.round step = .ok next ∧ Closing text language spans lowest (rounds + 1) next := by
  obtain ⟨reached, answered, once, members⟩ :=
    exactly worklist.frontier fun span member => closing.inside span (closing.noted span member)
  let fresh := reached.filter fun span => !worklist.seen.contains span
  have fresh_iff : ∀ span, span ∈ fresh ↔ span ∈ reached ∧ span ∉ worklist.seen := by
    intro span
    simp [fresh, List.mem_filter]
  have extended : ∀ span ∈ reached, ∃ origin ∈ worklist.frontier, Span.Extends text language origin span :=
    fun span member => (members span).mp member
  refine ⟨⟨Span.merge worklist.seen reached, fresh⟩, by simp only [Worklist.round, answered]; rfl, ?_⟩
  constructor
  case given => exact fun span member => Span.mem_merge.mpr (Or.inl (closing.given span member))
  case found =>
    intro span member
    rcases Span.mem_merge.mp member with seen | new
    · exact closing.found span seen
    · obtain ⟨origin, waiting, extension⟩ := extended span new
      obtain ⟨source, listed, reaches⟩ := closing.found origin (closing.noted origin waiting)
      exact ⟨source, listed, reaches.tail extension⟩
  case inside =>
    intro span member
    rcases Span.mem_merge.mp member with seen | new
    · exact closing.inside span seen
    · obtain ⟨_, _, extension⟩ := extended span new
      exact extension.inside
  case noted => exact fun span member => Span.mem_merge.mpr (Or.inr ((fresh_iff span).mp member).1)
  case closed =>
    intro span member settled next extension
    have seen : span ∈ worklist.seen := by
      by_contra unseen
      exact settled ((fresh_iff span).mpr ⟨(Span.mem_merge.mp member).resolve_left unseen, unseen⟩)
    by_cases waiting : span ∈ worklist.frontier
    · exact Span.mem_merge.mpr (Or.inr ((members next).mpr ⟨span, waiting, extension⟩))
    · exact Span.mem_merge.mpr (Or.inl (closing.closed span seen waiting next extension))
  case ahead =>
    intro span member
    obtain ⟨new, unseen⟩ := (fresh_iff span).mp member
    obtain ⟨origin, waiting, extension⟩ := extended span new
    have behind := closing.ahead origin waiting
    have moved : origin.stop < span.stop := by
      apply extension.stop_lt
      rintro rfl
      exact unseen (closing.noted span waiting)
    omega
  case distinct =>
    intro listed
    obtain ⟨seen, waiting⟩ := closing.distinct listed
    exact ⟨Span.nodup_merge seen (once waiting), (once waiting).filter _⟩

/-- The rounds that are made until nothing is left to follow, if no limit is set to them. -/
inductive Ends (step : SpanStep) : Nat → Worklist → Worklist → Prop where
  | still {worklist : Worklist} (done : worklist.frontier = []) : Ends step 0 worklist worklist
  | round {rounds : Nat} {worklist next last : Worklist} (waiting : worklist.frontier ≠ [])
      (answer : worklist.round step = .ok next) (later : Ends step rounds next last) :
      Ends step (rounds + 1) worklist last

theorem Ends.frontier_eq_nil {rounds : Nat} {worklist last : Worklist} (ends : Ends step rounds worklist last) :
    last.frontier = [] := by
  induction ends with
  | still done => exact done
  | round _ _ _ ih => exact ih

theorem Ends.run_eq {rounds : Nat} {worklist last : Worklist} (ends : Ends step rounds worklist last) {allowed : Nat}
    (enough : rounds ≤ allowed) : worklist.run step allowed = .ok last := by
  induction ends generalizing allowed with
  | still done => cases allowed <;> simp [Worklist.run, done]
  | round waiting answer _ ih =>
    cases allowed with
    | zero => cases enough
    | succ allowed =>
      have remaining := ih (Nat.le_of_succ_le_succ enough)
      simp only [Worklist.run, List.isEmpty_iff, waiting, answer]
      exact remaining

/-- Every round moves the frontier on, so the places behind it bound the rounds that are left: an end behind that
of the text does not exist. -/
theorem Closing.ends {lowest rounds : Nat} {worklist : Worklist} (exactly : SpanStep.Exact text language step)
    (closing : Closing text language spans lowest rounds worklist) :
    ∃ more last, more ≤ text.length + 1 - (lowest + rounds) ∧ Ends step more worklist last ∧
      Closing text language spans lowest (rounds + more) last := by
  generalize places : text.length + 1 - (lowest + rounds) = left
  induction left generalizing rounds worklist with
  | zero =>
    have done : worklist.frontier = [] := by
      apply List.eq_nil_iff_forall_not_mem.mpr
      intro span member
      have moved := closing.ahead span member
      have within : span.stop ≤ text.length := closing.inside span (closing.noted span member)
      omega
    exact ⟨0, worklist, Nat.le_refl 0, .still done, closing⟩
  | succ left ih =>
    by_cases done : worklist.frontier = []
    · exact ⟨0, worklist, Nat.zero_le _, .still done, closing⟩
    · obtain ⟨next, answered, kept⟩ := closing.round exactly
      obtain ⟨more, last, few, ends, closed⟩ := ih kept (by omega)
      refine ⟨more + 1, last, by omega, .round done answered ends, ?_⟩
      rwa [Nat.add_assoc, Nat.add_comm 1 more] at closed

theorem Closing.run {lowest rounds : Nat} (exactly : SpanStep.Exact text language step) (allowed : Nat)
    (enough : text.length < lowest + rounds + allowed) {worklist : Worklist}
    (closing : Closing text language spans lowest rounds worklist) :
    ∃ last rounds, worklist.run step allowed = .ok last ∧ last.frontier = [] ∧
      Closing text language spans lowest rounds last := by
  obtain ⟨more, last, few, ends, closed⟩ := closing.ends exactly
  exact ⟨last, rounds + more, ends.run_eq (by omega), ends.frontier_eq_nil, closed⟩

theorem Closing.mem_seen_iff {lowest rounds : Nat} {worklist : Worklist}
    (closing : Closing text language spans lowest rounds worklist) (done : worklist.frontier = [])
    (span : Span) :
    span ∈ worklist.seen ↔ ∃ origin ∈ spans, ReflTransGen (Span.Extends text language) origin span := by
  constructor
  · exact closing.found span
  · intro ⟨origin, member, reached⟩
    induction reached with
    | refl => exact closing.given origin member
    | tail _ last ih => exact closing.closed _ ih (by simp [done]) _ last

end Worklist

private theorem takeChar_answers (c : Char) (spans : List Span) :
    Span.takeChar text c spans =
      .ok ((spans.filter fun span => text[span.stop]? = some c).map fun span => span.advance 1) := by
  induction spans with
  | nil => rfl
  | cons span rest ih =>
    by_cases found : text[span.stop]? = some c
    · have inside : (span.advance 1).stop ≤ text.length := (List.getElem?_eq_some_iff.mp found).1
      simp only [Span.takeChar, found, ↓reduceIte, Span.advanceWithin, inside, ih]
      simp [found]
      rfl
    · simp [Span.takeChar, found, ih]

private theorem advance_injective (count : Nat) : Function.Injective fun span : Span => span.advance count := by
  intro ⟨start, stop⟩ ⟨other, last⟩ same
  simp only [Span.advance, Span.mk.injEq] at same ⊢
  omega

namespace SpanStep

variable {first second : SpanStep} {here there : Language Char}

theorem exact_one : Exact text 1 fun spans => .ok spans := by
  intro spans inside
  refine ⟨spans, rfl, id, fun span => ⟨fun member => ⟨span, member, ?_⟩, ?_⟩⟩
  · exact (Span.extends_one (inside span member)).mpr rfl
  · intro ⟨origin, member, extension⟩
    exact (Span.extends_one (inside origin member)).mp extension ▸ member

theorem exact_takeChar (c : Char) : Exact text {[c]} (Span.takeChar text c) := by
  intro spans _
  refine ⟨_, takeChar_answers c spans, fun once => (once.filter _).map (advance_injective 1), fun span => ?_⟩
  simp only [List.mem_map, List.mem_filter, decide_eq_true_eq, Span.extends_singleton]
  constructor
  · intro ⟨origin, ⟨member, found⟩, moved⟩
    exact ⟨origin, member, found, moved.symm⟩
  · intro ⟨origin, member, found, moved⟩
    exact ⟨origin, ⟨member, found⟩, moved.symm⟩

theorem Exact.merge (one : Exact text here first) (other : Exact text there second) :
    Exact text (here + there) (fun spans => do
      let left ← first spans
      let right ← second spans
      return Span.merge left right) := by
  intro spans inside
  obtain ⟨left, leftAnswer, leftOnce, leftMembers⟩ := one spans inside
  obtain ⟨right, rightAnswer, rightOnce, rightMembers⟩ := other spans inside
  refine ⟨Span.merge left right, by simp only [leftAnswer, rightAnswer]; rfl,
    fun once => Span.nodup_merge (leftOnce once) (rightOnce once), fun span => ?_⟩
  simp only [Span.mem_merge, leftMembers, rightMembers, Span.extends_add, ← exists_or, ← and_or_left]

theorem Exact.comp (one : Exact text here first) (other : Exact text there second) :
    Exact text (here * there) (fun spans => do
      let middle ← first spans
      second middle) := by
  intro spans inside
  obtain ⟨middle, answer, once, members⟩ := one spans inside
  have within : ∀ span ∈ middle, span.Inside text := by
    intro span member
    obtain ⟨_, _, extension⟩ := (members span).mp member
    exact extension.inside
  obtain ⟨last, lastAnswer, lastOnce, lastMembers⟩ := other middle within
  refine ⟨last, by simp only [answer]; exact lastAnswer, fun listed => lastOnce (once listed), fun span => ?_⟩
  simp only [lastMembers, members, Span.extends_mul]
  constructor
  · intro ⟨origin, ⟨source, member, before⟩, after⟩
    exact ⟨source, member, origin, before, after⟩
  · intro ⟨source, member, origin, before, after⟩
    exact ⟨origin, ⟨source, member, before⟩, after⟩

/-- As many rounds as the text has places suffice for a repetition. -/
theorem Exact.repeated (exactly : Exact text language step) :
    Exact text (KStar.kstar language) (fun spans => do
      let worklist ← Worklist.run step (text.length + 1) (Worklist.initial spans)
      return worklist.seen) := by
  intro spans inside
  have start : Worklist.Closing text language spans 0 0 (Worklist.initial spans) :=
    Worklist.closing_initial inside fun _ _ => Nat.zero_le _
  obtain ⟨last, rounds, answer, done, closed⟩ := start.run exactly (text.length + 1) (by omega)
  refine ⟨last.seen, by simp only [answer]; rfl, fun once => (closed.distinct once).1, fun span => ?_⟩
  rw [closed.mem_seen_iff done]
  constructor
  · intro ⟨origin, member, reached⟩
    exact ⟨origin, member, (Span.extends_kstar (inside origin member)).mpr reached⟩
  · intro ⟨origin, member, extension⟩
    exact ⟨origin, member, (Span.extends_kstar (inside origin member)).mp extension⟩

end SpanStep

mutual

theorem Pattern.reach_exact (text : Text) :
    ∀ pattern : Pattern, SpanStep.Exact text pattern.language (pattern.reach text)
  | .term term => Term.reach_exact text term
  | .alternation first others => (Term.reach_exact text first).merge (Pattern.reach_exact text others)

theorem Term.reach_exact (text : Text) :
    ∀ term : Term, SpanStep.Exact text term.language (term.reach text)
  | .empty => SpanStep.exact_one
  | .factor factor => Factor.reach_exact text factor
  | .concatenation first others => (Factor.reach_exact text first).comp (Term.reach_exact text others)

theorem Factor.reach_exact (text : Text) :
    ∀ factor : Factor, SpanStep.Exact text factor.language (factor.reach text)
  | .atom atom => Atom.reach_exact text atom
  | .zeroOrMore atom => (Atom.reach_exact text atom).repeated

theorem Atom.reach_exact (text : Text) :
    ∀ atom : Atom, SpanStep.Exact text atom.language (atom.reach text)
  | .char c => SpanStep.exact_takeChar c
  | .parentheses pattern => Pattern.reach_exact text pattern

end

namespace Pattern

variable (pattern : Pattern)

/-- The ends reached from the front of a text are the lengths of its prefixes in the language. -/
theorem exists_reach_stop_iff (text : Text) {count : Nat} (bound : count ≤ text.length) :
    (∃ reached, pattern.reach text [{}] = .ok reached ∧ ∃ span ∈ reached, span.stop = count) ↔
      text.take count ∈ pattern.language := by
  obtain ⟨reached, answer, _, members⟩ :=
    pattern.reach_exact text [{}] (by simp [Span.Inside])
  constructor
  · rintro ⟨other, same, span, member, rfl⟩
    obtain rfl : reached = other := Except.ok.inj (answer.symm.trans same)
    obtain ⟨origin, listed, extension⟩ := (members span).mp member
    rw [List.mem_singleton.mp listed] at extension
    simpa only [Text.slice_zero] using extension.spells
  · intro member
    refine ⟨reached, answer, ⟨0, count⟩, (members _).mpr ⟨{}, by simp, rfl, Nat.zero_le _, bound, ?_⟩, rfl⟩
    simpa only [Text.slice_zero] using member

theorem isFullMatch_iff (text : Text) : pattern.isFullMatch text = true ↔ text ∈ pattern.language := by
  obtain ⟨reached, answer, _, _⟩ := pattern.reach_exact text [{}] (by simp [Span.Inside])
  have stops := pattern.exists_reach_stop_iff text (Nat.le_refl _)
  rw [List.take_length] at stops
  rw [← stops]
  simp [isFullMatch, answer, List.any_eq_true]

/-- Matching is membership in the language: for every node and every span inside the text, and
for the prefixes of a text, whether each is matched by itself or all of them in one run. -/
theorem matching_exact (text : Text) :
    (∀ pattern : Pattern, SpanStep.Exact text pattern.language (pattern.reach text)) ∧
    (∀ term : Term, SpanStep.Exact text term.language (term.reach text)) ∧
    (∀ factor : Factor, SpanStep.Exact text factor.language (factor.reach text)) ∧
    (∀ atom : Atom, SpanStep.Exact text atom.language (atom.reach text)) ∧
    ∀ (pattern : Pattern) (count : Nat), count ≤ text.length →
      (pattern.isFullMatch (text.take count) = true ↔ text.take count ∈ pattern.language) ∧
      (text.take count ∈ pattern.language ↔
        ∃ reached, pattern.reach text [{}] = .ok reached ∧ ∃ span ∈ reached, span.stop = count) :=
  ⟨fun pattern => pattern.reach_exact text, fun term => term.reach_exact text,
    fun factor => factor.reach_exact text, fun atom => atom.reach_exact text,
    fun pattern count bound =>
      ⟨pattern.isFullMatch_iff (text.take count), (pattern.exists_reach_stop_iff text bound).symm⟩⟩

/-- The star of a star takes two letters of three, and ends there although its body may stand
still. -/
theorem matching_exact_nested_star :
    let letters := Atom.parentheses (.term (.factor (.zeroOrMore (.char 'a'))))
    let pattern := Pattern.term (.factor (.zeroOrMore letters))
    2 ≤ ['a', 'a', 'b'].length ∧ ['a', 'a'] ∈ pattern.language ∧
      ∃ reached, pattern.reach ['a', 'a', 'b'] [{}] = .ok reached ∧ ∃ span ∈ reached, span.stop = 2 := by
  intro letters pattern
  obtain ⟨_, _, _, _, prefixes⟩ := matching_exact ['a', 'a', 'b']
  obtain ⟨alone, together⟩ := prefixes pattern 2 (by decide)
  have member : ['a', 'a'] ∈ pattern.language := alone.mp (by decide)
  exact ⟨by decide, member, together.mp member⟩

end Pattern
end SumStar
