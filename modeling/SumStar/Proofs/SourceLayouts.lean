import SumStar.Grammar.Derivation
import SumStar.Proofs.SourceSplits

/-! How a source can be laid out. The line of terminals ends in a line feed or in a carriage return and a line
feed, and any blanks stand around the expression, line feeds among them. Every content with a line feed
is a layout of exactly one source, and a derivation sees the source and not the layout. -/

namespace SumStar

open Text

namespace Source

variable {content line terminals expression ending left right : Text} {source : Source}

/-- How the line of the terminals ends. Terminals with a carriage return at their own end need another one. -/
inductive Ending (terminals : Text) : Text → Prop where
  | feed (other : terminals.getLast? ≠ some '\r') : Ending terminals ['\n']
  | returned : Ending terminals ['\r', '\n']

/-- The content is the source with an end of line between its parts and blanks around the expression. -/
structure LaidOut (source : Source) (content ending left right : Text) : Prop where
  whole : content = source.terminals ++ ending ++ left ++ source.expression ++ right
  line : '\n' ∉ source.terminals
  ended : Ending source.terminals ending
  blank : ∀ c ∈ left ++ right, isBlank c = true
  trimmed : IsTrimmed source.expression

theorem withoutCarriageReturn_concat (line : Text) : withoutCarriageReturn (line ++ ['\r']) = line := by
  rw [withoutCarriageReturn, if_pos List.getLast?_concat, List.dropLast_concat]

theorem withoutCarriageReturn_of_ne (other : line.getLast? ≠ some '\r') : withoutCarriageReturn line = line :=
  if_neg other

theorem mem_of_mem_withoutCarriageReturn {c : Char} (member : c ∈ withoutCarriageReturn line) : c ∈ line := by
  by_cases returned : line.getLast? = some '\r'
  · rw [withoutCarriageReturn, if_pos returned] at member
    exact (List.dropLast_prefix line).subset member
  · rwa [withoutCarriageReturn_of_ne returned] at member

theorem exists_ending (line : Text) :
    ∃ ending, line ++ ['\n'] = withoutCarriageReturn line ++ ending ∧ Ending (withoutCarriageReturn line) ending := by
  by_cases returned : line.getLast? = some '\r'
  · obtain ⟨front, rfl⟩ := List.getLast?_eq_some_iff.mp returned
    refine ⟨['\r', '\n'], ?_, .returned⟩
    rw [withoutCarriageReturn_concat, List.append_assoc]
    rfl
  · rw [withoutCarriageReturn_of_ne returned]
    exact ⟨['\n'], rfl, .feed returned⟩

theorem Ending.ofText_eq (ended : Ending terminals ending) (line : '\n' ∉ terminals) (expression : Text) :
    ofText (terminals ++ ending ++ expression) = .ok ⟨terminals, trim expression⟩ := by
  cases ended with
  | feed other =>
    have whole : terminals ++ ['\n'] ++ expression = terminals ++ '\n' :: expression := by simp
    rw [whole, ofText_append line, withoutCarriageReturn_of_ne other]
  | returned =>
    have foreign : '\n' ∉ terminals ++ ['\r'] := by simpa using line
    have whole : terminals ++ ['\r', '\n'] ++ expression = (terminals ++ ['\r']) ++ '\n' :: expression := by simp
    rw [whole, ofText_append foreign, withoutCarriageReturn_concat]

theorem LaidOut.ofText_eq (laid : source.LaidOut content ending left right) : ofText content = .ok source := by
  have split : content = source.terminals ++ ending ++ (left ++ source.expression ++ right) := by
    simpa only [List.append_assoc] using laid.whole
  rw [split, laid.ended.ofText_eq laid.line, laid.trimmed.trim_eq laid.blank]

theorem exists_laidOut (read : ofText content = .ok source) :
    ∃ ending left right, source.LaidOut content ending left right := by
  obtain ⟨line, rest, rfl, foreign, rfl⟩ := exists_line read
  obtain ⟨ending, whole, ended⟩ := exists_ending line
  obtain ⟨left, right, split, blank⟩ := exists_trim rest
  refine ⟨ending, left, right, ?_, ?_, ended, blank, isTrimmed_trim rest⟩
  · calc line ++ '\n' :: rest = (line ++ ['\n']) ++ rest := List.append_cons _ _ _
      _ = withoutCarriageReturn line ++ ending ++ (left ++ trim rest ++ right) := by rw [whole, ← split]
      _ = withoutCarriageReturn line ++ ending ++ left ++ trim rest ++ right := by simp only [List.append_assoc]
  · exact fun member => foreign (mem_of_mem_withoutCarriageReturn member)

theorem ofText_eq_error_iff : (∃ cause, ofText content = .error cause) ↔ '\n' ∉ content := by
  constructor
  · rintro ⟨cause, refused⟩ present
    obtain ⟨source, read⟩ := exists_ofText present
    cases read.symm.trans refused
  · exact fun absent => ⟨.missingSeparator, ofText_of_notMem absent⟩

/-- A content without a line feed is refused, and any other is a layout of the one source that is read from it. A
derivation, failed or not, depends neither on the end of the line nor on the blanks around the
expression. -/
theorem layouts_exact :
    (∀ content, (∃ cause, ofText content = .error cause) ↔ '\n' ∉ content) ∧
      (∀ content source, ofText content = .ok source ↔ ∃ ending left right, source.LaidOut content ending left right) ∧
      ∀ options terminals expression left right, '\n' ∉ terminals → terminals.getLast? ≠ some '\r' →
        (∀ c ∈ left ++ right, isBlank c = true) →
          Grammar.derive options (terminals ++ ['\r', '\n'] ++ left ++ expression ++ right) =
            Grammar.derive options (terminals ++ ['\n'] ++ expression) := by
  refine ⟨fun _ => ofText_eq_error_iff, fun content source => ⟨exists_laidOut, ?_⟩, ?_⟩
  · rintro ⟨ending, left, right, laid⟩
    exact laid.ofText_eq
  · intro options terminals expression left right line other blank
    have same : ofText (terminals ++ ['\r', '\n'] ++ left ++ expression ++ right) =
        ofText (terminals ++ ['\n'] ++ expression) := by
      calc ofText (terminals ++ ['\r', '\n'] ++ left ++ expression ++ right)
          = ofText (terminals ++ ['\r', '\n'] ++ (left ++ expression ++ right)) := by simp only [List.append_assoc]
        _ = .ok ⟨terminals, trim (left ++ expression ++ right)⟩ := Ending.returned.ofText_eq line _
        _ = .ok ⟨terminals, trim expression⟩ := by rw [trim_append_blank blank]
        _ = ofText (terminals ++ ['\n'] ++ expression) := ((Ending.feed other).ofText_eq line expression).symm
    rw [Grammar.derive, Grammar.derive, same]

/-- An ideographic space and further line feeds around the expression, and two carriage returns of which the
terminals keep one. -/
theorem layouts_exact_two_returns :
    let terminals := "a,b".toList
    let expression := "(a+b)\nc".toList
    let left := "\u3000\n".toList
    let right := "\t\r\n".toList
    ('\n' ∉ terminals ∧ terminals.getLast? ≠ some '\r' ∧ ∀ c ∈ left ++ right, isBlank c = true) ∧
      (∃ grammar, Grammar.derive {} (terminals ++ ['\n'] ++ expression) = .ok grammar ∧
        grammar.expression = "A\nc".toList ∧
        Grammar.derive {} (terminals ++ ['\r', '\n'] ++ left ++ expression ++ right) = .ok grammar) ∧
      ∃ source, source.terminals = "a\r".toList ∧ source.expression = ['b'] ∧
        ofText "a\r\r\n b".toList = .ok source ∧
        ∃ ending left right, source.LaidOut "a\r\r\n b".toList ending left right := by
  intro terminals expression left right
  obtain ⟨_, sources, derivations⟩ := layouts_exact
  have line : '\n' ∉ terminals := by decide
  have other : terminals.getLast? ≠ some '\r' := by decide
  have blank : ∀ c ∈ left ++ right, isBlank c = true := List.all_eq_true.mp (by decide)
  let grammar : Grammar :=
    ⟨[.nth 0], terminals, "A\nc".toList, [⟨.nth 0, ['a']⟩, ⟨.nth 0, ['b']⟩], []⟩
  have derived : Grammar.derive {} (terminals ++ ['\n'] ++ expression) = .ok grammar := by decide +kernel
  have read : ofText "a\r\r\n b".toList = .ok ⟨"a\r".toList, ['b']⟩ := by decide
  refine ⟨⟨line, other, blank⟩, ⟨grammar, derived, rfl, ?_⟩, _, rfl, rfl, read, (sources _ _).mp read⟩
  exact (derivations {} terminals expression left right line other blank).trans derived

end Source

end SumStar
