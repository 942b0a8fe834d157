import SumStar.CommandLine.System

/-! Plans say what the command line asks of its surroundings, with a continuation for every reply.
They are carried out by the executable; performed on a system, every run has an outcome that can be
reasoned about. -/

namespace SumStar

inductive Plan where
  | readFile (path : Path) (next : Except FileError ByteArray → Plan)
  | writeFile (path : Path) (content : ByteArray) (next : Except FileError Unit → Plan)
  | flush (next : Except FileError Unit → Plan)
  | readLine (next : Except FileError ByteArray → Plan)
  | print (stream : Stream) (text : Text) (next : Plan)
  | exit (code : Nat)

structure Outcome (σ : Type) where
  exitCode : Nat
  output : Text
  errors : Text
  state : σ

/-- The outcome of printing a text first. -/
def Outcome.after {σ : Type} (outcome : Outcome σ) (text : Text) : Stream → Outcome σ
  | .output => { outcome with output := text ++ outcome.output }
  | .errors => { outcome with errors := text ++ outcome.errors }

namespace Plan

/-- The exit code of a run that is given up. -/
def givenUp : Nat := 101

/-- A text that its stream does not take ends the run. -/
def perform {σ : Type} (system : System σ) : Plan → σ → Outcome σ
  | readFile path next, state =>
    let (reply, state) := system.readFile path state
    (next reply).perform system state
  | writeFile path content next, state =>
    let (reply, state) := system.writeFile path content state
    (next reply).perform system state
  | flush next, state =>
    let (reply, state) := system.flush state
    (next reply).perform system state
  | readLine next, state =>
    let (reply, state) := system.readLine state
    (next reply).perform system state
  | print stream text next, state =>
    if system.takes stream text state then (next.perform system state).after text stream
    else ⟨givenUp, [], [], state⟩
  | exit code, state => ⟨code, [], [], state⟩

end Plan
end SumStar
