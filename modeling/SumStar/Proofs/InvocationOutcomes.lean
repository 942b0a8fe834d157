import Mathlib
import SumStar.CommandLine.Desk
import SumStar.Proofs.PlanPerformance

/-! How invocations end. Nothing is written before the last other failure is ruled out, and the prompt is shown as soon
as the separator has been found; a run that writes its file or comes to a verdict has no failure to report. What a file
holds afterwards follows from what the system says about writing it. -/

namespace SumStar

open Text

variable {σ φ : Type} {system : System σ} {view : View σ φ} {state : σ} {coloured : Bool} {invocation : Invocation}
  {failure : RunError} {content : Text}

namespace Invocation

/-- The state once a file has been written or could not be written. -/
def afterWriting (invocation : Invocation) (system : System σ) (state : σ) (path : Path) (content : ByteArray) : σ :=
  (system.writeFile path content (invocation.opened system state)).2

theorem content_afterWriting (lawful : system.Lawful view) {path : Path} {file : φ} (bytes : ByteArray)
    (apart : view.file state path ≠ some file) :
    view.content (invocation.afterWriting system state path bytes) file = view.content state file := by
  rw [afterWriting, lawful.content_writeFile, opened, lawful.content_readFile]
  rwa [opened, lawful.file_readFile]

theorem content_afterWriting_of_written (lawful : system.Lawful view) {path : Path} {file : φ} {bytes : ByteArray}
    (done : invocation.written system state path bytes = .ok ()) (found : view.file state path = some file) :
    view.content (invocation.afterWriting system state path bytes) file = some bytes := by
  apply lawful.content_written done
  rwa [opened, lawful.file_readFile]

theorem Reads.eq {other : Text} (reads : invocation.Reads system state content)
    (again : invocation.Reads system state other) : other = content :=
  toBytes_injective (Except.ok.inj (again.symm.trans reads))

theorem Reads.not_noText {cause : FileError} (reads : invocation.Reads system state content) :
    ¬NoText (system.readFile invocation.input state).1 cause := by
  intro unread
  rw [reads] at unread
  exact not_noText_toBytes unread

theorem Reads.perform_ofInvocation (heard : system.TakesAll) (coloured : Bool)
    (reads : invocation.Reads system state content) :
    (Plan.ofInvocation coloured invocation).perform system state =
      (match invocation.mode with
        | .grammar => Plan.grammar coloured invocation content
        | .evaluation => Plan.evaluation coloured invocation content).perform system
          (invocation.opened system state) := by
  rcases Plan.opening_cases heard coloured invocation state with ⟨_, unread, _⟩ | ⟨other, again, opened⟩
  · exact (reads.not_noText unread).elim
  · rwa [reads.eq again] at opened

/-- A run that writes its file has nothing to report. -/
theorem not_firstFailure_of_written {output : Text} {grammar : Grammar} (mode : invocation.mode = .grammar)
    (reads : invocation.Reads system state content) (named : invocation.output = some output)
    (derived : Grammar.derive invocation.options content = .ok grammar)
    (done : invocation.written system state (target output) (toBytes grammar.render) = .ok ()) :
    ¬invocation.FirstFailure system state failure := by
  intro first
  cases first with
  | unreadable unread => exact reads.not_noText unread
  | unnamed _ _ nameless => cases named.symm.trans nameless
  | unseparated again _ absent =>
    obtain rfl := reads.eq again
    cases derived.symm.trans (Grammar.derive_of_missing (Source.ofText_of_notMem absent))
  | stalled _ again _ stalls =>
    obtain rfl := reads.eq again
    cases derived.symm.trans stalls
  | unwritable _ again other found refused =>
    obtain rfl := reads.eq again
    cases named.symm.trans other
    cases derived.symm.trans found
    cases done.symm.trans refused
  | unprompted evaluation => cases mode.symm.trans evaluation
  | unanswered evaluation => cases mode.symm.trans evaluation
  | invalid evaluation => cases mode.symm.trans evaluation

/-- Without an output name the grammar mode reports nothing else. -/
theorem FirstFailure.eq_missingOutput (first : invocation.FirstFailure system state failure)
    (mode : invocation.mode = .grammar) (reads : invocation.Reads system state content)
    (nameless : invocation.output = none) : failure = .missingOutput := by
  cases first with
  | unnamed => rfl
  | unreadable unread => exact (reads.not_noText unread).elim
  | unseparated _ named => exact absurd nameless (named mode)
  | stalled _ _ named => exact absurd nameless named
  | unwritable _ _ named => cases nameless.symm.trans named
  | unprompted evaluation => cases mode.symm.trans evaluation
  | unanswered evaluation => cases mode.symm.trans evaluation
  | invalid evaluation => cases mode.symm.trans evaluation

/-- A run that comes to a verdict has nothing to report. -/
theorem Verdict.not_firstFailure {accepted : Bool} (mode : invocation.mode = .evaluation)
    (verdict : invocation.Verdict system state view accepted) : ¬invocation.FirstFailure system state failure := by
  obtain ⟨content, source, line, word, reads, split, prompts, answered, -, -, judged⟩ := verdict
  intro first
  cases first with
  | unreadable unread => exact reads.not_noText unread
  | unnamed grammar => cases mode.symm.trans grammar
  | unseparated again _ absent =>
    obtain rfl := reads.eq again
    cases split.symm.trans (Source.ofText_of_notMem absent)
  | stalled grammar => cases mode.symm.trans grammar
  | unwritable grammar => cases mode.symm.trans grammar
  | unprompted _ _ _ refused => cases prompts.symm.trans refused
  | unanswered _ _ _ _ unread =>
    rw [answered] at unread
    exact not_noText_toBytes unread
  | invalid _ again other _ _ refused =>
    obtain rfl := reads.eq again
    cases split.symm.trans other
    rw [accepts_eq, refused] at judged
    cases judged

theorem Verdict.eq {accepted other : Bool} (verdict : invocation.Verdict system state view accepted)
    (again : invocation.Verdict system state view other) : other = accepted := by
  obtain ⟨content, source, line, word, reads, split, _, answered, _, first, judged⟩ := verdict
  obtain ⟨_, _, told, said, repeated, parted, _, given, _, second, decided⟩ := again
  obtain rfl := reads.eq repeated
  cases split.symm.trans parted
  obtain rfl := toBytes_injective (Except.ok.inj (given.symm.trans answered))
  rw [second.eq_firstWord, ← first.eq_firstWord] at decided
  exact Except.ok.inj (decided.symm.trans judged)

end Invocation

open Plan

/-- The ways in which a run can end. -/
inductive Outcome.Ends (outcome : Outcome σ) (coloured : Bool) (system : System σ) (view : View σ φ) (state : σ)
    (invocation : Invocation) : Prop where
  | failed {failure : RunError} {last : σ} {shown : Text} (first : invocation.FirstFailure system state failure)
      (fails : outcome.Fails coloured invocation.verbose shown failure last)
      (prompted : invocation.Asks system state ∧ shown = prompt ∨ ¬invocation.Asks system state ∧ shown = [])
      (kept : view.content last = view.content state)
  | unwritten {content output : Text} {grammar : Grammar} {cause : FileError} (mode : invocation.mode = .grammar)
      (reads : invocation.Reads system state content) (named : invocation.output = some output)
      (derived : Grammar.derive invocation.options content = .ok grammar)
      (refused : invocation.written system state (Invocation.target output) (toBytes grammar.render) = .error cause)
      (fails : outcome.Fails coloured invocation.verbose [] (.unwritable (Invocation.target output) cause)
        (invocation.afterWriting system state (Invocation.target output) (toBytes grammar.render)))
  | written {content output : Text} {grammar : Grammar} (mode : invocation.mode = .grammar)
      (reads : invocation.Reads system state content) (named : invocation.output = some output)
      (derived : Grammar.derive invocation.options content = .ok grammar)
      (done : invocation.written system state (Invocation.target output) (toBytes grammar.render) = .ok ())
      (writes : outcome.Writes
        (invocation.afterWriting system state (Invocation.target output) (toBytes grammar.render)))
  | judged {accepted : Bool} {last : σ} (mode : invocation.mode = .evaluation)
      (asks : invocation.Asks system state) (verdict : invocation.Verdict system state view accepted)
      (judges : outcome.Judges coloured prompt accepted last) (kept : view.content last = view.content state)

theorem ends_of_invocation (lawful : system.Lawful view) (heard : system.TakesAll) (coloured : Bool)
    (invocation : Invocation) (state : σ) :
    ((ofInvocation coloured invocation).perform system state).Ends coloured system view state invocation := by
  have opening : view.content (invocation.opened system state) = view.content state := lawful.content_readFile _ state
  rcases opening_cases heard coloured invocation state with ⟨cause, unread, fails⟩ | ⟨content, reads, run⟩
  · have silent : ¬invocation.Asks system state := fun ⟨_, _, reads, _⟩ => reads.not_noText unread
    exact .failed (.unreadable unread) fails (Or.inr ⟨silent, rfl⟩) opening
  rw [run]
  cases mode : invocation.mode with
  | grammar =>
    have silent : ¬invocation.Asks system state := fun ⟨evaluation, _⟩ => by cases mode.symm.trans evaluation
    rcases grammar_cases heard coloured mode reads with
      ⟨failure, first, fails⟩ | ⟨output, grammar, named, derived, ⟨cause, refused, fails⟩ | ⟨done, writes⟩⟩
    · exact .failed first fails (Or.inr ⟨silent, rfl⟩) opening
    · exact .unwritten mode reads named derived refused fails
    · exact .written mode reads named derived done writes
  | evaluation =>
    by_cases present : '\n' ∈ content
    · have asks : invocation.Asks system state := ⟨mode, content, reads, present⟩
      obtain ⟨source, split⟩ := Source.exists_ofText present
      rcases question_cases heard lawful coloured mode reads split with
        ⟨failure, last, first, fails, kept⟩ | ⟨accepted, last, verdict, judges, kept⟩
      · exact .failed first fails (Or.inl ⟨asks, rfl⟩) (kept.trans opening)
      · exact .judged mode asks verdict judges (kept.trans opening)
    · have silent : ¬invocation.Asks system state := fun ⟨_, other, again, inside⟩ =>
        present (reads.eq again ▸ inside)
      have named : invocation.mode = .grammar → invocation.output ≠ none := fun grammar => by
        cases mode.symm.trans grammar
      simp only [evaluation, Source.ofText_of_notMem present]
      exact .failed (.unseparated reads named present) (fails_fail heard _ _) (Or.inr ⟨silent, rfl⟩) opening

namespace Outcome.Ends

variable {outcome : Outcome σ} {file : φ}

theorem target_of_changed (ends : outcome.Ends coloured system view state invocation) (lawful : system.Lawful view)
    (changed : view.content outcome.state file ≠ view.content state file) :
    invocation.mode = .grammar ∧ ∃ content output grammar, invocation.Reads system state content ∧
      invocation.output = some output ∧ Grammar.derive invocation.options content = .ok grammar ∧
      view.file state (Invocation.target output) = some file ∧
      (outcome.exitCode = 0 ∨
        ∃ cause, invocation.FirstFailure system state (.unwritable (Invocation.target output) cause)) := by
  have unchanged : ∀ {last}, outcome.state = last → view.content last = view.content state → False :=
    fun same kept => changed (by rw [same, kept])
  have found : ∀ {output bytes}, outcome.state = invocation.afterWriting system state (Invocation.target output) bytes →
      view.file state (Invocation.target output) = some file := by
    intro output bytes same
    by_contra apart
    exact changed (same ▸ Invocation.content_afterWriting lawful bytes apart)
  cases ends with
  | failed _ fails _ kept => exact (unchanged fails.state kept).elim
  | unwritten mode reads named derived refused fails =>
    exact ⟨mode, _, _, _, reads, named, derived, found fails.state,
      Or.inr ⟨_, .unwritable mode reads named derived refused⟩⟩
  | written mode reads named derived _ writes =>
    exact ⟨mode, _, _, _, reads, named, derived, found writes.state, Or.inl writes.exitCode⟩
  | judged _ _ _ judges kept => exact (unchanged judges.state kept).elim

theorem content_of_success (ends : outcome.Ends coloured system view state invocation) (lawful : system.Lawful view)
    (mode : invocation.mode = .grammar) (success : outcome.exitCode = 0) :
    ∃ content output grammar, invocation.Reads system state content ∧ invocation.output = some output ∧
      Grammar.derive invocation.options content = .ok grammar ∧
      ∀ file, (view.file state (Invocation.target output) = some file →
          view.content outcome.state file = some (toBytes grammar.render)) ∧
        (view.file state (Invocation.target output) ≠ some file →
          view.content outcome.state file = view.content state file) := by
  cases ends with
  | failed _ fails => rw [fails.exitCode] at success; cases success
  | unwritten _ _ _ _ _ fails => rw [fails.exitCode] at success; cases success
  | @written content output grammar _ reads named derived done writes =>
    refine ⟨content, output, grammar, reads, named, derived, fun file => ⟨fun found => ?_, fun apart => ?_⟩⟩
    · rw [writes.state]
      exact Invocation.content_afterWriting_of_written lawful done found
    · rw [writes.state]
      exact Invocation.content_afterWriting lawful _ apart
  | judged evaluation => cases mode.symm.trans evaluation

theorem success_iff_verdict (ends : outcome.Ends coloured system view state invocation)
    (mode : invocation.mode = .evaluation) :
    outcome.exitCode = 0 ↔ invocation.Verdict system state view true := by
  cases ends with
  | failed first fails =>
    refine ⟨fun success => ?_, fun verdict => (verdict.not_firstFailure mode first).elim⟩
    rw [fails.exitCode] at success
    cases success
  | unwritten grammar => cases mode.symm.trans grammar
  | written grammar => cases mode.symm.trans grammar
  | @judged accepted _ _ _ verdict judges =>
    have exit : outcome.exitCode = 0 ↔ accepted = true := by rw [judges.exitCode]; cases accepted <;> simp
    rw [exit]
    exact ⟨fun accepting => accepting ▸ verdict, fun accepting => (verdict.eq accepting).symm⟩

theorem not_firstFailure_of_success (ends : outcome.Ends coloured system view state invocation)
    (success : outcome.exitCode = 0) : ¬invocation.FirstFailure system state failure := by
  cases ends with
  | failed _ fails => rw [fails.exitCode] at success; cases success
  | unwritten _ _ _ _ _ fails => rw [fails.exitCode] at success; cases success
  | written mode reads named derived done => exact Invocation.not_firstFailure_of_written mode reads named derived done
  | judged mode _ verdict => exact verdict.not_firstFailure mode

theorem rejected_or_reported (ends : outcome.Ends coloured system view state invocation)
    (failed : outcome.exitCode ≠ 0) :
    outcome.exitCode = 1 ∧
      ((invocation.mode = .evaluation ∧ invocation.Verdict system state view false ∧
          outcome.output = prompt ++ line (Colour.paint coloured .red "String rejected".toList)) ∨
        ∃ failure, invocation.FirstFailure system state failure ∧
          ∃ traced, outcome.errors = traced ++ failure.line coloured ∧ (invocation.verbose = false → traced = [])) := by
  cases ends with
  | failed first fails => exact ⟨fails.exitCode, Or.inr ⟨_, first, fails.errors⟩⟩
  | unwritten mode reads named derived refused fails =>
    exact ⟨fails.exitCode, Or.inr ⟨_, .unwritable mode reads named derived refused, fails.errors⟩⟩
  | written _ _ _ _ _ writes => exact absurd writes.exitCode failed
  | @judged accepted _ mode _ verdict judges =>
    cases accepted with
    | true => exact absurd judges.exitCode failed
    | false => exact ⟨judges.exitCode, Or.inl ⟨mode, verdict, judges.output⟩⟩

theorem prompt_infix_iff (ends : outcome.Ends coloured system view state invocation) :
    prompt <:+: outcome.output ↔ invocation.Asks system state := by
  have silence : ¬prompt <:+: [] := fun inside => absurd (List.eq_nil_of_infix_nil inside) (by decide)
  have silent : invocation.mode = .grammar → ¬invocation.Asks system state := fun grammar ⟨evaluation, _⟩ => by
    cases grammar.symm.trans evaluation
  cases ends with
  | failed _ fails prompted =>
    rw [fails.output]
    rcases prompted with ⟨asks, rfl⟩ | ⟨unasked, rfl⟩
    · exact ⟨fun _ => asks, fun _ => List.infix_refl _⟩
    · exact ⟨fun inside => absurd inside silence, fun asks => absurd asks unasked⟩
  | unwritten mode _ _ _ _ fails =>
    rw [fails.output]
    exact ⟨fun inside => absurd inside silence, fun asks => absurd asks (silent mode)⟩
  | written mode _ _ _ _ writes =>
    rw [writes.output]
    exact ⟨fun inside => absurd inside silence, fun asks => absurd asks (silent mode)⟩
  | judged _ asks _ judges =>
    rw [judges.output]
    exact ⟨fun _ => asks, fun _ => (List.prefix_append _ _).isInfix⟩

end Outcome.Ends

/-- A run whose arguments are accepted touches no file but the grammar file of its output, in the grammar mode and once
the derivation has succeeded. If it succeeds, that file holds the rendering. In the evaluation mode it succeeds
exactly if the first word of the line it reads is accepted. Otherwise it exits with 1 and says that the word is
rejected or reports the first failure. The prompt is shown if and only if the evaluation mode has found a separator. -/
theorem outcome_of_accepted (lawful : system.Lawful view) (heard : system.TakesAll) (coloured : Bool)
    (invocation : Invocation) (state : σ) :
    let outcome := (ofArguments coloured (.ok invocation)).perform system state
    (∀ file, view.content outcome.state file ≠ view.content state file →
      invocation.mode = .grammar ∧ ∃ content output grammar, invocation.Reads system state content ∧
        invocation.output = some output ∧ Grammar.derive invocation.options content = .ok grammar ∧
        view.file state (Invocation.target output) = some file ∧
        (outcome.exitCode = 0 ∨
          ∃ cause, invocation.FirstFailure system state (.unwritable (Invocation.target output) cause))) ∧
      (invocation.mode = .grammar → outcome.exitCode = 0 → ∃ content output grammar,
        invocation.Reads system state content ∧ invocation.output = some output ∧
          Grammar.derive invocation.options content = .ok grammar ∧
          ∀ file, (view.file state (Invocation.target output) = some file →
              view.content outcome.state file = some (toBytes grammar.render)) ∧
            (view.file state (Invocation.target output) ≠ some file →
              view.content outcome.state file = view.content state file)) ∧
      (invocation.mode = .evaluation → (outcome.exitCode = 0 ↔ invocation.Verdict system state view true)) ∧
      (outcome.exitCode = 0 → ∀ failure, ¬invocation.FirstFailure system state failure) ∧
      (outcome.exitCode ≠ 0 → outcome.exitCode = 1 ∧
        ((invocation.mode = .evaluation ∧ invocation.Verdict system state view false ∧
            outcome.output = prompt ++ line (Colour.paint coloured .red "String rejected".toList)) ∨
          ∃ failure, invocation.FirstFailure system state failure ∧
            ∃ traced, outcome.errors = traced ++ failure.line coloured ∧
              (invocation.verbose = false → traced = []))) ∧
      (prompt <:+: outcome.output ↔ invocation.Asks system state) := by
  intro outcome
  have ends : outcome.Ends coloured system view state invocation :=
    ends_of_invocation lawful heard coloured invocation state
  exact ⟨fun _ => ends.target_of_changed lawful, ends.content_of_success lawful, ends.success_iff_verdict,
    fun success _ => ends.not_firstFailure_of_success success, ends.rejected_or_reported, ends.prompt_infix_iff⟩

/-- A grammar file written, a word accepted, and a missing output name that leaves the missing separator unreported. -/
theorem outcome_of_accepted_on_desk :
    let held := toBytes "a,b\na+b".toList
    let desk := { Desk.holding [(.ofText "in".toList, held), (.ofText "bare".toList, toBytes "a+b".toList)] with
      input := toBytes " b a\n".toList }
    let run invocation := (ofArguments false (.ok invocation)).perform Desk.system desk
    let derived := run { input := .ofText "in".toList, mode := .grammar, output := some "out".toList }
    let evaluated := run { input := .ofText "in".toList, mode := .evaluation }
    let nameless := run { input := .ofText "bare".toList, mode := .grammar }
    (derived.exitCode = 0 ∧ derived.state.files (.ofText "in".toList) = some held ∧
        derived.state.files (.ofText "out.gld".toList) =
          some (toBytes "S,A\na,b\nS\nS -> A\nA -> a\nA -> b".toList)) ∧
      evaluated.exitCode = 0 ∧
      nameless.exitCode = 1 ∧ nameless.errors = "error: gld mode needs an output name\n".toList := by
  intro held desk run derived evaluated nameless
  have heard : Desk.system.TakesAll := fun _ _ _ => rfl
  have law (invocation : Invocation) := outcome_of_accepted Desk.lawful heard false invocation desk
  have reading : Desk.readFile (.ofText "in".toList) desk = (.ok held, desk) :=
    Desk.readFile_of_files (by decide) rfl
  have rendering : (Grammar.derive {} "a,b\na+b".toList).map Grammar.render =
      .ok "S,A\na,b\nS\nS -> A\nA -> a\nA -> b".toList := by decide
  refine ⟨?_, ?_, ?_⟩
  · let invocation : Invocation := { input := .ofText "in".toList, mode := .grammar, output := some "out".toList }
    obtain ⟨-, file, -, -, failed, -⟩ := law invocation
    have reads : invocation.Reads Desk.system desk "a,b\na+b".toList := congrArg Prod.fst reading
    cases derives : Grammar.derive {} "a,b\na+b".toList with
    | error cause => rw [derives] at rendering; cases rendering
    | ok grammar =>
      have success : derived.exitCode = 0 := by
        by_contra failure
        obtain ⟨-, ⟨evaluation, -⟩ | ⟨_, first, -⟩⟩ := failed failure
        · cases evaluation
        · exact Invocation.not_firstFailure_of_written rfl reads rfl derives rfl first
      obtain ⟨content, output, other, again, named, found, files⟩ := file rfl success
      cases named
      obtain rfl := reads.eq again
      cases derives.symm.trans found
      rw [derives] at rendering
      refine ⟨success, ((files (.ofText "in".toList)).2 (by decide)).trans rfl, ?_⟩
      rw [← Except.ok.inj rendering]
      exact (files (.ofText "out.gld".toList)).1 rfl
  · obtain ⟨-, -, accepting, -⟩ := law { input := .ofText "in".toList, mode := .evaluation }
    have split : Source.ofText "a,b\na+b".toList = .ok ⟨"a,b".toList, "a+b".toList⟩ := by decide
    have line : FirstLine (Desk.view.input desk) (toBytes " b a\n".toList) := Desk.lawful.line_readLine rfl
    have word : FirstWord " b a\n".toList ['b'] := firstWord_split " b a\n".toList
    have accepted : accepts "a+b".toList ['b'] = .ok true := by cbv
    exact (accepting rfl).mpr ⟨_, _, _, _, congrArg Prod.fst reading, split, rfl, rfl, line, word, accepted⟩
  · let invocation : Invocation := { input := .ofText "bare".toList, mode := .grammar }
    obtain ⟨-, -, -, success, failed, -⟩ := law invocation
    have reads : invocation.Reads Desk.system desk "a+b".toList :=
      congrArg Prod.fst (Desk.readFile_of_files (by decide) rfl)
    have missing : invocation.FirstFailure Desk.system desk .missingOutput := .unnamed rfl reads rfl
    obtain ⟨one, ⟨evaluation, -⟩ | ⟨failure, first, traced, errors, quiet⟩⟩ := failed fun zero => success zero _ missing
    · cases evaluation
    · obtain rfl := first.eq_missingOutput rfl reads rfl
      rw [quiet rfl] at errors
      exact ⟨one, errors⟩

/-- Reading the standard input for the expression leaves no line for the candidate, a write that fails may have emptied
the file, and a prompt that does not get through or a report that nobody takes ends the run in its own way. -/
theorem outcome_depends_on_surroundings :
    let run (system : System Desk) desk invocation := (ofArguments false (.ok invocation)).perform system desk
    let fed : Desk := { files := fun _ => none, input := toBytes "a\na\n".toList }
    let asking : Invocation := { input := Desk.standardInput, mode := .evaluation }
    let held := toBytes "a\na".toList
    let full := { Desk.holding [(.ofText "in".toList, held), (.ofText "out.gld".toList, held)] with full := true }
    let written := run Desk.system full { input := .ofText "in".toList, mode := .grammar, output := some "out".toList }
    let deserted := { Desk.holding [(.ofText "in".toList, held)] with input := held, deserted := true }
    let asked := run Desk.system deserted { input := .ofText "in".toList, mode := .evaluation }
    let silent := run { Desk.system with takes := fun _ _ _ => false } fed
      { input := .ofText "in".toList, mode := .evaluation }
    (asking.Reads Desk.system fed "a\na\n".toList ∧ Source.ofText "a\na\n".toList = .ok ⟨['a'], ['a']⟩ ∧
        FirstLine fed.input (toBytes "a\n".toList) ∧ FirstWord "a\n".toList ['a'] ∧
        accepts ['a'] ['a'] = .ok true ∧ (run Desk.system fed asking).exitCode = 1) ∧
      (written.exitCode = 1 ∧ full.files (.ofText "out.gld".toList) = some held ∧
        written.state.files (.ofText "out.gld".toList) = some .empty ∧
        written.errors = "error: could not write out.gld: No space left on device (os error 28)\n".toList) ∧
      (asked.exitCode = 1 ∧
        asked.errors = "error: could not read the candidate string: Broken pipe (os error 32)\n".toList) ∧
      silent.exitCode = 101 := by
  intro run fed asking held full written deserted asked silent
  have heard : Desk.system.TakesAll := fun _ _ _ => rfl
  have succeeds : (Grammar.derive {} "a\na".toList).isOk = true := by decide
  have first : FirstLine (Desk.view.input fed) (toBytes "a\n".toList) := Desk.lawful.line_readLine rfl
  refine ⟨⟨rfl, by decide, first, firstWord_split "a\n".toList, by cbv, ?_⟩, ?_, ?_, rfl⟩
  · simp only [run, fed, asking]
    cbv
  · have reads : Invocation.Reads { input := .ofText "in".toList, mode := .grammar, output := some "out".toList }
        Desk.system full "a\na".toList := congrArg Prod.fst (Desk.readFile_of_files (by decide) rfl)
    have stops : written = _ := reads.perform_ofInvocation heard false
    cases derived : Grammar.derive {} "a\na".toList with
    | error cause => rw [derived] at succeeds; cases succeeds
    | ok grammar =>
      simp only [Plan.grammar, derived] at stops
      have report : RunError.line false (.unwritable (Invocation.target "out".toList)
          (.other 28 "No space left on device".toList)) =
            "error: could not write out.gld: No space left on device (os error 28)\n".toList := by
        rw [RunError.line, RunError.message_unwritable]
        rfl
      rw [stops]
      exact ⟨rfl, rfl, rfl, (List.append_nil _).trans report⟩
  · have reads : Invocation.Reads { input := .ofText "in".toList, mode := .evaluation } Desk.system deserted
        "a\na".toList := congrArg Prod.fst (Desk.readFile_of_files (by decide) rfl)
    have stops : asked = _ := reads.perform_ofInvocation heard false
    rw [stops]
    exact ⟨rfl, rfl⟩

end SumStar
