import SumStar.CommandLine.FileError
import SumStar.CommandLine.Path

/-! The surroundings of a run are whatever answers its requests. What paths lead to and what a file can be used for is
theirs to decide; a view says what they hold, so that the answers can be held to it. -/

namespace SumStar

inductive Stream where
  | output
  | errors
  deriving DecidableEq, Repr

/-- The answer to each request in each state, and the state that the request leaves behind. -/
structure System (σ : Type) where
  readFile : Path → σ → Except FileError ByteArray × σ
  writeFile : Path → ByteArray → σ → Except FileError Unit × σ
  /-- Hands on what was printed and is still held back. -/
  flush : σ → Except FileError Unit × σ
  readLine : σ → Except FileError ByteArray × σ
  takes : Stream → Text → σ → Bool

/-- Nothing that is printed gets lost. -/
def System.TakesAll {σ : Type} (system : System σ) : Prop :=
  ∀ stream text state, system.takes stream text state = true

/-- What a state holds: the content of each file, the file that a path leads to, and the standard input as far as it
has not been read. -/
structure View (σ φ : Type) where
  content : σ → φ → Option ByteArray
  file : σ → Path → Option φ
  input : σ → ByteArray

def lineFeed : UInt8 := 10

/-- The line goes on to the first line feed, which belongs to it, or to the end. -/
def FirstLine (bytes line : ByteArray) : Prop :=
  ∃ rest, bytes = line ++ rest ∧
    ((∃ body : ByteArray, line = body.push lineFeed ∧ lineFeed ∉ body.data) ∨ lineFeed ∉ line.data ∧ rest = .empty)

/-- Reading changes no file, and writing changes at most the one that the path leads to. A write that fails may have
changed it all the same, and reading a file may use up the standard input. -/
structure System.Lawful {σ φ : Type} (system : System σ) (view : View σ φ) : Prop where
  content_readFile (path : Path) (state : σ) : view.content (system.readFile path state).2 = view.content state
  file_readFile (path : Path) (state : σ) : view.file (system.readFile path state).2 = view.file state
  content_writeFile {path : Path} {state : σ} {file : φ} (content : ByteArray)
    (apart : view.file state path ≠ some file) :
    view.content (system.writeFile path content state).2 file = view.content state file
  content_written {path : Path} {content : ByteArray} {state : σ} {file : φ}
    (written : (system.writeFile path content state).1 = .ok ()) (found : view.file state path = some file) :
    view.content (system.writeFile path content state).2 file = some content
  content_flush (state : σ) : view.content (system.flush state).2 = view.content state
  input_flush (state : σ) : view.input (system.flush state).2 = view.input state
  content_readLine (state : σ) : view.content (system.readLine state).2 = view.content state
  line_readLine {state : σ} {line : ByteArray} (read : (system.readLine state).1 = .ok line) :
    FirstLine (view.input state) line

end SumStar
