import SumStar.CommandLine.Planning

/-! What the answers of the surroundings make of an invocation. A failure is the first one if those to be reported before
it are ruled out; this is said by itself, and not by what is planned. -/

namespace SumStar

open Text

/-- What was read is no text, for that cause. -/
inductive NoText : Except FileError ByteArray → FileError → Prop where
  | refused (cause : FileError) : NoText (.error cause) cause
  | malformed {bytes : ByteArray} (foreign : ∀ text, bytes ≠ toBytes text) : NoText (.ok bytes) .notText

namespace Invocation

variable {σ φ : Type} (invocation : Invocation) (system : System σ) (state : σ)

def Reads (content : Text) : Prop :=
  (system.readFile invocation.input state).1 = .ok (toBytes content)

/-- The state once the input has been read. -/
def opened : σ :=
  (system.readFile invocation.input state).2

/-- The reply to writing the file. -/
def written (path : Path) (content : ByteArray) : Except FileError Unit :=
  (system.writeFile path content (invocation.opened system state)).1

/-- The prompt gets through. -/
def Prompts : Prop :=
  (system.flush (invocation.opened system state)).1 = .ok ()

/-- The reply to reading a line behind the prompt. -/
def answer : Except FileError ByteArray :=
  (system.readLine (system.flush (invocation.opened system state)).2).1

/-- The grammar file of the output. -/
def target (output : Text) : Path :=
  .ofText (output ++ ".gld".toList)

inductive FirstFailure : RunError → Prop where
  | unreadable {cause : FileError} (unread : NoText (system.readFile invocation.input state).1 cause) :
    FirstFailure (.unreadable invocation.input cause)
  | unnamed {content : Text} (mode : invocation.mode = .grammar) (reads : invocation.Reads system state content)
      (nameless : invocation.output = none) :
    FirstFailure .missingOutput
  | unseparated {content : Text} (reads : invocation.Reads system state content)
      (named : invocation.mode = .grammar → invocation.output ≠ none) (absent : '\n' ∉ content) :
    FirstFailure (.derivation (.source .missingSeparator))
  | stalled {content : Text} {cause : Stalled} (mode : invocation.mode = .grammar)
      (reads : invocation.Reads system state content) (named : invocation.output ≠ none)
      (stalls : Grammar.derive invocation.options content = .error (.stalled cause)) :
    FirstFailure (.derivation (.stalled cause))
  | unwritable {content output : Text} {grammar : Grammar} {cause : FileError} (mode : invocation.mode = .grammar)
      (reads : invocation.Reads system state content) (named : invocation.output = some output)
      (derived : Grammar.derive invocation.options content = .ok grammar)
      (refused : invocation.written system state (target output) (toBytes grammar.render) = .error cause) :
    FirstFailure (.unwritable (target output) cause)
  | unprompted {content : Text} {cause : FileError} (mode : invocation.mode = .evaluation)
      (reads : invocation.Reads system state content) (present : '\n' ∈ content)
      (refused : (system.flush (invocation.opened system state)).1 = .error cause) :
    FirstFailure (.candidate cause)
  | unanswered {content : Text} {cause : FileError} (mode : invocation.mode = .evaluation)
      (reads : invocation.Reads system state content) (present : '\n' ∈ content)
      (prompts : invocation.Prompts system state) (unread : NoText (invocation.answer system state) cause) :
    FirstFailure (.candidate cause)
  | invalid {content line : Text} {source : Source} {cause : SyntaxError} (mode : invocation.mode = .evaluation)
      (reads : invocation.Reads system state content) (split : Source.ofText content = .ok source)
      (prompts : invocation.Prompts system state)
      (answered : invocation.answer system state = .ok (toBytes line))
      (refused : Pattern.parse (flatten source.expression) = .error cause) :
    FirstFailure (.invalidExpression cause)

/-- The evaluation mode has found a separator and so asks for a line. -/
def Asks : Prop :=
  invocation.mode = .evaluation ∧ ∃ content, invocation.Reads system state content ∧ '\n' ∈ content

/-- Whether the expression accepts the first word of the line that is read. That line is the first one of what reading
the input has left of the standard input. -/
def Verdict (view : View σ φ) (accepted : Bool) : Prop :=
  ∃ content source line word, invocation.Reads system state content ∧ Source.ofText content = .ok source ∧
    invocation.Prompts system state ∧ invocation.answer system state = .ok (toBytes line) ∧
    FirstLine (view.input (invocation.opened system state)) (toBytes line) ∧ FirstWord line word ∧
    accepts source.expression word = .ok accepted

end Invocation

theorem RunError.message_unwritable (output : Text) (cause : FileError) :
    (unwritable (Invocation.target output) cause).message =
      "could not write ".toList ++ (output ++ ".gld".toList) ++ ": ".toList ++ cause.message :=
  congrArg (fun name => "could not write ".toList ++ name ++ ": ".toList ++ cause.message) (Path.display_ofText _)

/-- The report of a failure, on a line of its own. -/
def RunError.line (coloured : Bool) (failure : RunError) : Text :=
  Plan.line (Colour.paint coloured .boldRed "error:".toList ++ [' '] ++ failure.message)

end SumStar
