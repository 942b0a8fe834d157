import SumStar.Proofs.MatchingLanguage

/-! Matching comes to an end by itself. Each round of a repetition but the last finds a span that ends further on,
so no more rounds are made than the text has places from the first end on, whatever the body is: it may take
nothing, and it may hold repetitions with rounds of their own. The limit set to the rounds is
therefore never what ends them, and no span is moved beyond the text. -/

namespace SumStar

variable {text : Text} {language : Language Char} {step : SpanStep} {spans : List Span} {place : Nat}

theorem SpanStep.Exact.ends (exactly : SpanStep.Exact text language step) (bound : place ≤ text.length)
    (behind : ∀ span ∈ spans, place ≤ span.stop ∧ span.Inside text) :
    ∃ rounds last, rounds ≤ text.length - place + 1 ∧ Worklist.Ends step rounds (Worklist.initial spans) last := by
  have start : Worklist.Closing text language spans place 0 (Worklist.initial spans) :=
    Worklist.closing_initial (fun span member => (behind span member).2) fun span member => (behind span member).1
  obtain ⟨rounds, last, few, ends, _⟩ := start.ends exactly
  exact ⟨rounds, last, by omega, ends⟩

theorem Factor.reach_zeroOrMore {atom : Atom} {rounds : Nat} {last : Worklist}
    (ends : Worklist.Ends (atom.reach text) rounds (Worklist.initial spans) last) (enough : rounds ≤ text.length + 1) :
    (Factor.zeroOrMore atom).reach text spans = .ok last.seen := by
  have answer : Worklist.run (fun frontier => atom.reach text frontier) (text.length + 1) (Worklist.initial spans) =
      .ok last := ends.run_eq enough
  rw [Factor.reach, answer]
  rfl

theorem Pattern.exists_isFullMatch_eq (pattern : Pattern) (text : Text) :
    ∃ reached, pattern.reach text [{}] = .ok reached ∧
      pattern.isFullMatch text = reached.any fun span => span.stop == text.length := by
  obtain ⟨reached, answer, _⟩ := pattern.reach_exact text [{}] (by simp [Span.Inside])
  exact ⟨reached, answer, by rw [Pattern.isFullMatch, answer]⟩

/-- Whatever atom is repeated, and from whatever spans inside the text, the rounds end when nothing is left to
follow, and there are not more of them than places from the first end of a span to the end of the text. A match
of a whole text never moves a span beyond the text: its run answers spans, by which it is judged, and no
overrun. -/
theorem matching_terminates (text : Text) :
    (∀ (atom : Atom) (place : Nat) (spans : List Span), place ≤ text.length →
        (∀ span ∈ spans, place ≤ span.stop ∧ span.stop ≤ text.length) →
          ∃ rounds last, rounds ≤ text.length - place + 1 ∧
            Worklist.Ends (atom.reach text) rounds (Worklist.initial spans) last ∧
            (Factor.zeroOrMore atom).reach text spans = .ok last.seen) ∧
      ∀ pattern : Pattern, ∃ reached, pattern.reach text [{}] = .ok reached ∧
        pattern.isFullMatch text = reached.any fun span => span.stop == text.length := by
  refine ⟨?_, fun pattern => pattern.exists_isFullMatch_eq text⟩
  intro atom place spans bound behind
  obtain ⟨rounds, last, few, ends⟩ := (atom.reach_exact text).ends bound behind
  exact ⟨rounds, last, few, ends, Factor.reach_zeroOrMore ends (by omega)⟩

/-- A repeated repetition from the second of three places: its body may stand still, and still there are at
most three rounds. -/
theorem matching_terminates_nested_star :
    let text := ['a', 'a', 'b']
    let body := Atom.parentheses (.term (.factor (.zeroOrMore (.char 'a'))))
    1 ≤ text.length ∧ (∀ span ∈ [Span.mk 0 1], 1 ≤ span.stop ∧ span.stop ≤ text.length) ∧
      (∃ rounds last, rounds ≤ 3 ∧ Worklist.Ends (body.reach text) rounds (Worklist.initial [⟨0, 1⟩]) last ∧
        last.seen = [⟨0, 1⟩, ⟨0, 2⟩]) ∧
      ∃ reached, (Pattern.term (.factor (.zeroOrMore body))).reach text [{}] = .ok reached := by
  intro text body
  have bound : 1 ≤ text.length := by decide
  have behind : ∀ span ∈ [Span.mk 0 1], 1 ≤ span.stop ∧ span.stop ≤ text.length := by decide
  obtain ⟨repetitions, whole⟩ := matching_terminates text
  obtain ⟨rounds, last, few, ends, answer⟩ := repetitions body 1 [⟨0, 1⟩] bound behind
  have found : (Factor.zeroOrMore body).reach text [⟨0, 1⟩] = .ok [⟨0, 1⟩, ⟨0, 2⟩] := by decide
  obtain ⟨reached, run, _⟩ := whole (.term (.factor (.zeroOrMore body)))
  exact ⟨bound, behind, ⟨rounds, last, few, ends, Except.ok.inj (answer.symm.trans found)⟩, reached, run⟩

end SumStar
