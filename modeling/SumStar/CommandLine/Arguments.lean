import SumStar.CommandLine.Path
import SumStar.Grammar.Derivation

/-! Arguments are taken from left to right and checked as they come, so whichever of a wrong
argument and a request for the version or for help stands first decides. Options may stand
anywhere in front of `--`, each at most once; what is no option fills the places of the input, the
mode and the output. -/

namespace SumStar

inductive Mode where
  | grammar
  | evaluation
  deriving DecidableEq, Repr

namespace Mode

/-- One dash in front of the mode is allowed, and letter case does not count. -/
def ofText? (text : Text) : Option Mode :=
  let selector :=
    match text with
    | '-' :: rest => rest
    | _ => text
  let name := selector.map Char.toLower
  if name = "gld".toList then some grammar
  else if name = "eval".toList then some evaluation
  else none

end Mode

structure Invocation where
  input : Path
  mode : Mode
  output : Option Text := none
  options : DerivationOptions := {}
  verbose : Bool := false
  deriving DecidableEq, Repr

inductive UsageError where
  | unknownOption (token : Text)
  | unneededValue (token : Text)
  | missingValue (token : Text)
  | invalidValue (value : Text)
  | repeated (token : Text)
  | emptyInput
  | invalidMode (token : Text)
  | unexpected (token : Text)
  | missing (place : Text)
  deriving DecidableEq, Repr

namespace UsageError

def quoted (text : Text) : Text :=
  ['\''] ++ text ++ ['\'']

def message : UsageError → Text
  | unknownOption token => "unknown option ".toList ++ quoted token
  | unneededValue token => "no value is allowed in ".toList ++ quoted token
  | missingValue token => "a value is needed for ".toList ++ quoted token
  | invalidValue value => "invalid value ".toList ++ quoted value
  | repeated token => quoted token ++ " cannot be used more than once".toList
  | emptyInput => "the input needs a name".toList
  | invalidMode token => "no mode is named ".toList ++ quoted token
  | unexpected token => "unexpected argument ".toList ++ quoted token
  | missing place => "missing argument ".toList ++ place

end UsageError

/-- Why the arguments lead to no invocation. -/
inductive Halt where
  | version
  | help
  | misuse (cause : UsageError)
  deriving DecidableEq, Repr

inductive Flag where
  | verbose
  | version
  | help
  deriving DecidableEq, Repr

namespace Flag

def ofName? (name : Text) : Option Flag :=
  if name = "verbose".toList then some verbose
  else if name = "version".toList then some version
  else if name = "help".toList then some help
  else none

def ofLetter? : Char → Option Flag
  | 'v' => some verbose
  | 'V' => some version
  | 'h' => some help
  | _ => none

end Flag

inductive Setting where
  | dedup
  | kleeneSymbols
  deriving DecidableEq, Repr

namespace Setting

def ofName? (name : Text) : Option Setting :=
  if name = "dedup".toList then some dedup
  else if name = "kleene-symbols".toList then some kleeneSymbols
  else none

end Setting

/-- The invocation as far as it is known. -/
structure Draft where
  input : Option Path := none
  mode : Option Mode := none
  output : Option Text := none
  memory : Option GroupMemory := none
  naming : Option StarNaming := none
  verbose : Bool := false

namespace Draft

/-- Fills the next place that is still free. -/
def place (draft : Draft) (token : Text) : Except Halt Draft :=
  match draft.input, draft.mode, draft.output with
  | none, _, _ =>
    if token.isEmpty then .error (.misuse .emptyInput)
    else .ok { draft with input := some (.ofText token) }
  | some _, none, _ =>
    match Mode.ofText? token with
    | some mode => .ok { draft with mode := some mode }
    | none => .error (.misuse (.invalidMode token))
  | some _, some _, none => .ok { draft with output := some token }
  | some _, some _, some _ => .error (.misuse (.unexpected token))

def expectsMode (draft : Draft) : Bool :=
  draft.input.isSome && draft.mode.isNone

def raise (draft : Draft) (token : Text) : Flag → Except Halt Draft
  | .version => .error .version
  | .help => .error .help
  | .verbose =>
    if draft.verbose then .error (.misuse (.repeated token)) else .ok { draft with verbose := true }

def setMemory (draft : Draft) (value : Text) : Except Halt Draft :=
  if value = "scan".toList then .ok { draft with memory := some .scan }
  else if value = "global".toList then .ok { draft with memory := some .run }
  else .error (.misuse (.invalidValue value))

def setNaming (draft : Draft) (value : Text) : Except Halt Draft :=
  if value = "per-scan".toList then .ok { draft with naming := some .shared }
  else if value = "per-match".toList then .ok { draft with naming := some .separate }
  else .error (.misuse (.invalidValue value))

def set (draft : Draft) (token value : Text) : Setting → Except Halt Draft
  | .dedup =>
    if draft.memory.isSome then .error (.misuse (.repeated token)) else draft.setMemory value
  | .kleeneSymbols =>
    if draft.naming.isSome then .error (.misuse (.repeated token)) else draft.setNaming value

/-- Raises the flags of a cluster such as `-vh` one after the other. -/
def raiseAll (draft : Draft) (token : Text) : Text → Except Halt Draft
  | [] => .ok draft
  | letter :: rest =>
    match Flag.ofLetter? letter with
    | none => .error (.misuse (.unknownOption token))
    | some flag => do
      let next ← draft.raise token flag
      next.raiseAll token rest

/-- Where the mode is expected, a cluster that is not made of flags alone is the mode. -/
def cluster (draft : Draft) (token letters : Text) : Except Halt Draft :=
  if draft.expectsMode && letters.any fun letter => (Flag.ofLetter? letter).isNone then
    draft.place token
  else
    draft.raiseAll token letters

def placeAll (draft : Draft) : List Text → Except Halt Draft
  | [] => .ok draft
  | token :: rest => do
    let next ← draft.place token
    next.placeAll rest

def optionName (body : Text) : Text :=
  body.takeWhile (· ≠ '=')

def attachedValue? (body : Text) : Option Text :=
  match body.dropWhile (· ≠ '=') with
  | [] => none
  | _ :: value => some value

/-- A setting without an attached value takes the next argument, whatever it looks like: one that
begins with a dash is no valid value of any setting. -/
def read (draft : Draft) : List Text → Except Halt Draft
  | [] => .ok draft
  | token :: rest =>
    match token with
    | ['-', '-'] => draft.placeAll rest
    | '-' :: '-' :: body =>
      match Flag.ofName? (optionName body), Setting.ofName? (optionName body), attachedValue? body with
      | some _, _, some _ => .error (.misuse (.unneededValue token))
      | some flag, _, none => do
        let next ← draft.raise token flag
        next.read rest
      | none, some setting, some value => do
        let next ← draft.set token value setting
        next.read rest
      | none, some setting, none =>
        match rest with
        | [] => .error (.misuse (.missingValue token))
        | value :: others => do
          let next ← draft.set token value setting
          next.read others
      | none, none, _ => .error (.misuse (.unknownOption token))
    | '-' :: letter :: letters => do
      let next ← draft.cluster token (letter :: letters)
      next.read rest
    | _ => do
      let next ← draft.place token
      next.read rest

def finish (draft : Draft) : Except Halt Invocation :=
  match draft.input, draft.mode with
  | some input, some mode =>
    .ok
      { input := input
        mode := mode
        output := draft.output
        options := ⟨draft.memory.getD .scan, draft.naming.getD .shared⟩
        verbose := draft.verbose }
  | none, _ => .error (.misuse (.missing "<INPUT>".toList))
  | some _, none => .error (.misuse (.missing "<MODE>".toList))

end Draft

def Invocation.ofArguments (arguments : List Text) : Except Halt Invocation := do
  let draft ← Draft.read {} arguments
  draft.finish

end SumStar
