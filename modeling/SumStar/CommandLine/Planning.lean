import SumStar.CommandLine.Arguments
import SumStar.CommandLine.Plan
import SumStar.Grammar.Render
import SumStar.Matching.Acceptance

/-! What each invocation does. Failures are reported in a fixed order: the input is read first; the
grammar mode then wants an output name, a separator, a reduction that does not stall and a file it
can write; the evaluation mode wants a separator, asks for a candidate, which has to get through and be
answered, and only then looks at the syntax of the expression. -/

namespace SumStar

inductive RunError where
  | unreadable (path : Path) (cause : FileError)
  | unwritable (path : Path) (cause : FileError)
  | candidate (cause : FileError)
  | missingOutput
  | derivation (cause : DerivationError)
  | invalidExpression (cause : SyntaxError)
  deriving DecidableEq, Repr

namespace RunError

def message : RunError → Text
  | unreadable path cause => "could not read ".toList ++ path.display ++ ": ".toList ++ cause.message
  | unwritable path cause => "could not write ".toList ++ path.display ++ ": ".toList ++ cause.message
  | candidate cause => "could not read the candidate string: ".toList ++ cause.message
  | missingOutput => "gld mode needs an output name".toList
  | derivation cause => cause.message
  | invalidExpression cause => "invalid expression: ".toList ++ cause.message

end RunError

inductive Colour where
  | green
  | red
  | boldRed
  deriving DecidableEq, Repr

namespace Colour

def code : Colour → Text
  | green => "32".toList
  | red => "31".toList
  | boldRed => "1;31".toList

/-- Terminal control sequences around the text, if colours are wanted. -/
def paint (wanted : Bool) (colour : Colour) (text : Text) : Text :=
  if wanted then "\x1b[".toList ++ colour.code ++ ['m'] ++ text ++ "\x1b[0m".toList else text

end Colour

namespace Plan

def line (text : Text) : Text :=
  text ++ ['\n']

def fail (coloured : Bool) (cause : RunError) : Plan :=
  .print .errors (line (Colour.paint coloured .boldRed "error:".toList ++ [' '] ++ cause.message)) (.exit 1)

def reportWhen (wanted : Bool) (text : Text) (next : Plan) : Plan :=
  if wanted then .print .errors text next else next

def prompt : Text :=
  "Enter a string: ".toList

/-- The productions in order, then the body of the start production. -/
def trace (grammar : Grammar) : Text :=
  (grammar.productions.map fun production => line ("rule: ".toList ++ production.render)).flatten ++
    line ("reduced expression: ".toList ++ grammar.expression)

def verdict (coloured accepted : Bool) : Plan :=
  if accepted then
    .print .output (line (Colour.paint coloured .green "String accepted".toList)) (.exit 0)
  else
    .print .output (line (Colour.paint coloured .red "String rejected".toList)) (.exit 1)

def writeGrammar (coloured : Bool) (invocation : Invocation) (output : Text) (grammar : Grammar) : Plan :=
  let path := Path.ofText (output ++ Grammar.fileExtension)
  reportWhen invocation.verbose (trace grammar)
    (.writeFile path (Text.toBytes grammar.render) fun
      | .error cause => fail coloured (.unwritable path cause)
      | .ok () => reportWhen invocation.verbose (line ("wrote ".toList ++ path.display)) (.exit 0))

def grammar (coloured : Bool) (invocation : Invocation) (content : Text) : Plan :=
  match invocation.output with
  | none => fail coloured .missingOutput
  | some output =>
    match Grammar.derive invocation.options content with
    | .error cause => fail coloured (.derivation cause)
    | .ok grammar => writeGrammar coloured invocation output grammar

def judge (coloured : Bool) (invocation : Invocation) (expression candidate : Text) : Plan :=
  reportWhen invocation.verbose (line ("flattened expression: ".toList ++ flatten expression))
    (match accepts expression candidate with
      | .error cause => fail coloured (.invalidExpression cause)
      | .ok accepted => verdict coloured accepted)

/-- Only the first line of the standard input is looked at, and of it only the first word. -/
def askCandidate (coloured : Bool) (next : Text → Plan) : Plan :=
  .print .output prompt (.flush fun
    | .error cause => fail coloured (.candidate cause)
    | .ok () => .readLine fun reply =>
      match reply.bind Text.decode with
      | .error cause => fail coloured (.candidate cause)
      | .ok line => next (Text.firstWord line))

def evaluation (coloured : Bool) (invocation : Invocation) (content : Text) : Plan :=
  match Source.ofText content with
  | .error cause => fail coloured (.derivation (.source cause))
  | .ok source => askCandidate coloured (judge coloured invocation source.expression)

def ofInvocation (coloured : Bool) (invocation : Invocation) : Plan :=
  .readFile invocation.input fun reply =>
    match reply.bind Text.decode with
    | .error cause => fail coloured (.unreadable invocation.input cause)
    | .ok content =>
      match invocation.mode with
      | .grammar => grammar coloured invocation content
      | .evaluation => evaluation coloured invocation content

def usage : Text :=
  "Usage: regram [OPTIONS] <INPUT> <MODE> [OUTPUT]".toList

def help : Text :=
  line usage ++
    ("\nArguments:\n" ++
      "  <INPUT>   File holding the terminal line followed by the expression\n" ++
      "  <MODE>    gld writes the grammar, eval asks for a string and judges it\n" ++
      "  [OUTPUT]  Base name of the grammar file written in gld mode\n" ++
      "\nOptions:\n" ++
      "      --dedup <scan|global>                   How long a sum group keeps its symbol\n" ++
      "      --kleene-symbols <per-scan|per-match>   Whether star groups share a symbol\n" ++
      "  -v, --verbose                               Print the derivation to stderr\n" ++
      "  -h, --help                                  Print help\n" ++
      "  -V, --version                               Print version\n").toList

/-- The plan for what the arguments have been found to say. -/
def ofArguments (coloured : Bool) : Except Halt Invocation → Plan
  | .ok invocation => ofInvocation coloured invocation
  | .error .version => .print .output (line "regram 0.1.0".toList) (.exit 0)
  | .error .help => .print .output help (.exit 0)
  | .error (.misuse cause) => .print .errors (line ("error: ".toList ++ cause.message) ++ line usage) (.exit 2)

end Plan
end SumStar
