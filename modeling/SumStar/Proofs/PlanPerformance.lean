import SumStar.CommandLine.Failure
import SumStar.Proofs.DerivationRuns
import SumStar.Proofs.SourceSplits

/-! What the plans do when they are performed. Each part of a plan asks its surroundings for one thing after the other
and stops at the first failure, which it reports; without a failure it goes on, writes its file or tells its verdict. -/

namespace SumStar

open Text

theorem accepts_eq (expression candidate : Text) :
    accepts expression candidate = (Pattern.parse (flatten expression)).map fun pattern => pattern.isFullMatch candidate := by
  unfold accepts
  cases Pattern.parse (flatten expression) <;> rfl

theorem toBytes_injective {first second : Text} (same : toBytes first = toBytes second) : first = second :=
  Option.some.inj ((ofBytes?_toBytes first).symm.trans ((congrArg ofBytes? same).trans (ofBytes?_toBytes second)))

theorem reply_cases (reply : Except FileError ByteArray) :
    (∃ text, reply = .ok (toBytes text) ∧ reply.bind decode = .ok text) ∨
      ∃ cause, NoText reply cause ∧ reply.bind decode = .error cause := by
  cases reply with
  | error cause => exact Or.inr ⟨cause, .refused cause, rfl⟩
  | ok bytes =>
    rcases decode_cases bytes with ⟨text, rfl⟩ | ⟨foreign, refused⟩
    · exact Or.inl ⟨text, rfl, decode_toBytes text⟩
    · exact Or.inr ⟨.notText, .malformed foreign, refused⟩

theorem not_noText_toBytes {text : Text} {cause : FileError} : ¬NoText (.ok (toBytes text)) cause := by
  intro unread
  cases unread with
  | malformed foreign => exact foreign text rfl

variable {σ φ : Type} {system : System σ} {view : View σ φ} {state here last : σ} {coloured verbose : Bool}
  {invocation : Invocation} {failure : RunError} {content before : Text}

/-- The report of the failure is all that follows what was shown and traced. -/
structure Outcome.Fails (outcome : Outcome σ) (coloured verbose : Bool) (shown : Text) (failure : RunError)
    (last : σ) : Prop where
  exitCode : outcome.exitCode = 1
  output : outcome.output = shown
  errors : ∃ traced, outcome.errors = traced ++ failure.line coloured ∧ (verbose = false → traced = [])
  state : outcome.state = last

structure Outcome.Writes (outcome : Outcome σ) (last : σ) : Prop where
  exitCode : outcome.exitCode = 0
  output : outcome.output = []
  state : outcome.state = last

/-- The verdict is shown behind what was shown before. -/
structure Outcome.Judges (outcome : Outcome σ) (coloured : Bool) (shown : Text) (accepted : Bool) (last : σ) :
    Prop where
  exitCode : outcome.exitCode = if accepted then 0 else 1
  output : outcome.output = shown ++
    if accepted then Plan.line (Colour.paint coloured .green "String accepted".toList)
    else Plan.line (Colour.paint coloured .red "String rejected".toList)
  state : outcome.state = last

namespace Outcome

variable {outcome : Outcome σ}

theorem Fails.traced (fails : outcome.Fails coloured verbose before failure last) (text : Text) :
    (outcome.after (if verbose then text else []) .errors).Fails coloured verbose before failure last := by
  obtain ⟨exitCode, output, ⟨traced, errors, quiet⟩, state⟩ := fails
  refine ⟨exitCode, output, ⟨(if verbose then text else []) ++ traced, ?_, fun silent => ?_⟩, state⟩
  · simp only [after, errors, List.append_assoc]
  · simp [silent, quiet silent]

theorem Fails.shown (fails : outcome.Fails coloured verbose [] failure last) (text : Text) :
    (outcome.after text .output).Fails coloured verbose text failure last where
  exitCode := fails.exitCode
  output := by simp only [after, fails.output, List.append_nil]
  errors := fails.errors
  state := fails.state

theorem Judges.shown {accepted : Bool} (judges : outcome.Judges coloured [] accepted last) (text : Text) :
    (outcome.after text .output).Judges coloured text accepted last where
  exitCode := judges.exitCode
  output := congrArg (text ++ ·) judges.output
  state := judges.state

end Outcome

namespace Plan

section Performance

variable (heard : system.TakesAll)
include heard

theorem perform_print (stream : Stream) (text : Text) (plan : Plan) (state : σ) :
    (print stream text plan).perform system state = (plan.perform system state).after text stream := by
  rw [perform, heard, if_pos rfl]

theorem perform_reportWhen (wanted : Bool) (text : Text) (plan : Plan) (state : σ) :
    (reportWhen wanted text plan).perform system state =
      (plan.perform system state).after (if wanted then text else []) .errors := by
  cases wanted with
  | false => rfl
  | true => exact perform_print heard .errors text plan state

theorem fails_fail (failure : RunError) (last : σ) :
    ((fail coloured failure).perform system last).Fails coloured verbose [] failure last := by
  rw [fail, perform_print heard]
  exact ⟨rfl, rfl, ⟨[], List.append_nil _, fun _ => rfl⟩, rfl⟩

/-- Reading comes first, and what it leaves behind is what is there later on. -/
theorem opening_cases (coloured : Bool) (invocation : Invocation) (state : σ) :
    let outcome := (ofInvocation coloured invocation).perform system state
    (∃ cause, NoText (system.readFile invocation.input state).1 cause ∧
        outcome.Fails coloured invocation.verbose [] (.unreadable invocation.input cause)
          (invocation.opened system state)) ∨
      ∃ content, invocation.Reads system state content ∧
        outcome = (match invocation.mode with
          | .grammar => grammar coloured invocation content
          | .evaluation => evaluation coloured invocation content).perform system (invocation.opened system state) := by
  simp only [ofInvocation, perform]
  rcases reply_cases (system.readFile invocation.input state).1 with
    ⟨content, reads, decoded⟩ | ⟨cause, unread, decoded⟩
  · exact Or.inr ⟨content, reads, by rw [decoded]; cases invocation.mode <;> rfl⟩
  · refine Or.inl ⟨cause, unread, ?_⟩
    rw [decoded]
    exact fails_fail heard _ _

theorem writeGrammar_cases (coloured : Bool) (invocation : Invocation) (output : Text) (grammar : Grammar) (here : σ) :
    let outcome := (writeGrammar coloured invocation output grammar).perform system here
    let (reply, last) := system.writeFile (Invocation.target output) (toBytes grammar.render) here
    (∃ cause, reply = .error cause ∧
        outcome.Fails coloured invocation.verbose [] (.unwritable (Invocation.target output) cause) last) ∨
      reply = .ok () ∧ outcome.Writes last := by
  have target : Path.ofText (output ++ Grammar.fileExtension) = Invocation.target output := rfl
  simp only [writeGrammar, target, perform_reportWhen heard, perform]
  cases (system.writeFile (Invocation.target output) (toBytes grammar.render) here).1 with
  | error cause => exact Or.inl ⟨cause, rfl, (fails_fail heard _ _).traced _⟩
  | ok _ =>
    refine Or.inr ⟨rfl, ?_⟩
    rw [perform_reportWhen heard]
    exact ⟨rfl, rfl, rfl⟩

theorem judge_cases (coloured : Bool) (invocation : Invocation) (expression candidate : Text) (here : σ) :
    let outcome := (judge coloured invocation expression candidate).perform system here
    (∃ cause, Pattern.parse (flatten expression) = .error cause ∧
        outcome.Fails coloured invocation.verbose [] (.invalidExpression cause) here) ∨
      ∃ accepted, accepts expression candidate = .ok accepted ∧ outcome.Judges coloured [] accepted here := by
  simp only [judge, perform_reportWhen heard, accepts_eq]
  cases Pattern.parse (flatten expression) with
  | error cause => exact Or.inl ⟨cause, rfl, (fails_fail heard _ _).traced _⟩
  | ok pattern =>
    refine Or.inr ⟨pattern.isFullMatch candidate, rfl, ?_⟩
    simp only [Except.map, verdict]
    cases pattern.isFullMatch candidate
    · rw [if_neg Bool.false_ne_true, perform_print heard]
      exact ⟨rfl, List.append_nil _, rfl⟩
    · rw [if_pos rfl, perform_print heard]
      exact ⟨rfl, List.append_nil _, rfl⟩

/-- With an input that can be read, the grammar mode reports what keeps it from the derivation, or it tries to write
the file. -/
theorem grammar_cases (coloured : Bool) (mode : invocation.mode = .grammar)
    (reads : invocation.Reads system state content) :
    let here := invocation.opened system state
    let outcome := (grammar coloured invocation content).perform system here
    (∃ failure, invocation.FirstFailure system state failure ∧
        outcome.Fails coloured invocation.verbose [] failure here) ∨
      ∃ output grammar, invocation.output = some output ∧ Grammar.derive invocation.options content = .ok grammar ∧
        let (reply, last) := system.writeFile (Invocation.target output) (toBytes grammar.render) here
        (∃ cause, reply = .error cause ∧
            outcome.Fails coloured invocation.verbose [] (.unwritable (Invocation.target output) cause) last) ∨
          reply = .ok () ∧ outcome.Writes last := by
  cases named : invocation.output with
  | none =>
    simp only [grammar, named]
    exact Or.inl ⟨.missingOutput, .unnamed mode reads named, fails_fail heard _ _⟩
  | some output =>
    have present : invocation.output ≠ none := by simp [named]
    simp only [grammar, named]
    cases split : Source.ofText content with
    | error cause =>
      rw [Grammar.derive_of_missing split]
      cases cause
      have absent : '\n' ∉ content := fun inside => by
        obtain ⟨source, found⟩ := Source.exists_ofText inside
        cases split.symm.trans found
      exact Or.inl ⟨_, .unseparated reads (fun _ => present) absent, fails_fail heard _ _⟩
    | ok source =>
      cases reduced : reduceSums invocation.options.memory source.expression {} with
      | error cause =>
        have stalls := Grammar.derive_of_stalled split reduced
        rw [stalls]
        exact Or.inl ⟨_, .stalled mode reads present stalls, fails_fail heard _ _⟩
      | ok sums =>
        rw [Grammar.derive_of_reduceSums split reduced]
        exact Or.inr ⟨output, _, rfl, rfl, writeGrammar_cases heard coloured invocation output _ _⟩

theorem askCandidate_cases (coloured : Bool) (next : Text → Plan) (here : σ) :
    let outcome := (askCandidate coloured next).perform system here
    let (flushed, asked) := system.flush here
    let (answer, last) := system.readLine asked
    (∃ cause, flushed = .error cause ∧ outcome.Fails coloured verbose prompt (.candidate cause) asked) ∨
      flushed = .ok () ∧
        ((∃ cause, NoText answer cause ∧ outcome.Fails coloured verbose prompt (.candidate cause) last) ∨
          ∃ line, answer = .ok (toBytes line) ∧
            outcome = ((next (firstWord line)).perform system last).after prompt .output) := by
  simp only [askCandidate, perform_print heard, perform]
  cases (system.flush here).1 with
  | error cause => exact Or.inl ⟨cause, rfl, (fails_fail heard _ _).shown _⟩
  | ok _ =>
    refine Or.inr ⟨rfl, ?_⟩
    simp only [perform]
    rcases reply_cases (system.readLine (system.flush here).2).1 with ⟨line, read, decoded⟩ | ⟨cause, unread, decoded⟩
    · exact Or.inr ⟨line, read, by rw [decoded]⟩
    · refine Or.inl ⟨cause, unread, ?_⟩
      rw [decoded]
      exact (fails_fail heard _ _).shown _

/-- With a separator, the evaluation mode asks for a candidate and reports what keeps it from a verdict: the candidate
before the expression. -/
theorem question_cases (lawful : system.Lawful view) (coloured : Bool) {source : Source}
    (mode : invocation.mode = .evaluation) (reads : invocation.Reads system state content)
    (split : Source.ofText content = .ok source) :
    let here := invocation.opened system state
    let outcome := (evaluation coloured invocation content).perform system here
    (∃ failure last, invocation.FirstFailure system state failure ∧
        outcome.Fails coloured invocation.verbose prompt failure last ∧ view.content last = view.content here) ∨
      ∃ accepted last, invocation.Verdict system state view accepted ∧
        outcome.Judges coloured prompt accepted last ∧ view.content last = view.content here := by
  intro here
  have present : '\n' ∈ content := by
    by_contra absent
    cases (Source.ofText_of_notMem absent).symm.trans split
  have flushing : view.content (system.flush here).2 = view.content here := lawful.content_flush here
  have reading : view.content (system.readLine (system.flush here).2).2 = view.content here := by
    rw [lawful.content_readLine, flushing]
  simp only [evaluation, split]
  rcases askCandidate_cases heard coloured (judge coloured invocation source.expression) here with
    ⟨cause, refused, fails⟩ | ⟨prompts, ⟨cause, unread, fails⟩ | ⟨line, answered, asked⟩⟩
  · exact Or.inl ⟨_, _, .unprompted mode reads present refused, fails, flushing⟩
  · exact Or.inl ⟨_, _, .unanswered mode reads present prompts unread, fails, reading⟩
  · rw [asked]
    rcases judge_cases heard coloured invocation source.expression (firstWord line) _ with
      ⟨cause, refused, fails⟩ | ⟨accepted, judged, judges⟩
    · exact Or.inl ⟨_, _, .invalid mode reads split prompts answered refused, fails.shown _, reading⟩
    · have first : FirstLine (view.input here) (toBytes line) := by
        rw [← lawful.input_flush]
        exact lawful.line_readLine answered
      have verdict : invocation.Verdict system state view accepted :=
        ⟨content, source, line, firstWord line, reads, split, prompts, answered, first, firstWord_split line, judged⟩
      exact Or.inr ⟨accepted, _, verdict, judges.shown _, reading⟩

end Performance

end Plan

end SumStar
