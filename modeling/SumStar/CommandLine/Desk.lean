import SumStar.CommandLine.System

/-! A small system. Every path but one leads to a file of its own; that one leads to the standard input, and reading it
there uses it up. A full disk takes no content but empties the file all the same, and what was printed cannot
be handed on once nobody listens. -/

namespace SumStar

structure Desk where
  files : Path → Option ByteArray
  input : ByteArray := .empty
  full : Bool := false
  deserted : Bool := false

namespace Desk

def standardInput : Path :=
  .ofText "/dev/stdin".toList

/-- A desk with the given files and no others. -/
def holding (files : List (Path × ByteArray)) : Desk where
  files path := files.lookup path

def put (desk : Desk) (path : Path) (content : ByteArray) : Desk :=
  { desk with files := fun other => if other = path then some content else desk.files other }

/-- The front of the bytes up to the first line feed, and the rest. -/
def splitLine : List UInt8 → List UInt8 × List UInt8
  | [] => ([], [])
  | byte :: bytes =>
    if byte = lineFeed then ([byte], bytes)
    else
      let (line, rest) := splitLine bytes
      (byte :: line, rest)

def readFile (path : Path) (desk : Desk) : Except FileError ByteArray × Desk :=
  if path = standardInput then (.ok desk.input, { desk with input := .empty })
  else
    match desk.files path with
    | some content => (.ok content, desk)
    | none => (.error .notFound, desk)

def writeFile (path : Path) (content : ByteArray) (desk : Desk) : Except FileError Unit × Desk :=
  if path = standardInput then (.error .permissionDenied, desk)
  else if desk.full then (.error (.other 28 "No space left on device".toList), desk.put path .empty)
  else (.ok (), desk.put path content)

def flush (desk : Desk) : Except FileError Unit × Desk :=
  (if desk.deserted then .error (.other 32 "Broken pipe".toList) else .ok (), desk)

def readLine (desk : Desk) : Except FileError ByteArray × Desk :=
  let (line, rest) := splitLine desk.input.data.toList
  (.ok line.toByteArray, { desk with input := rest.toByteArray })

def system : System Desk where
  readFile := readFile
  writeFile := writeFile
  flush := flush
  readLine := readLine
  takes _ _ _ := true

def view : View Desk Path where
  content := files
  file _ path := if path = standardInput then none else some path
  input := input

variable {desk : Desk} {path : Path} {content : ByteArray}

theorem readFile_of_files (plain : path ≠ standardInput) (found : desk.files path = some content) :
    readFile path desk = (.ok content, desk) := by
  simp only [readFile, if_neg plain, found]

theorem splitLine_append (bytes : List UInt8) : (splitLine bytes).1 ++ (splitLine bytes).2 = bytes := by
  induction bytes with
  | nil => rfl
  | cons byte bytes ih =>
    rw [splitLine]
    split
    · rfl
    · exact congrArg (byte :: ·) ih

/-- A line feed stands at the end of the line or nowhere in it, and only the last line has none. -/
theorem lineFeed_splitLine (bytes : List UInt8) :
    (∃ body, (splitLine bytes).1 = body ++ [lineFeed] ∧ lineFeed ∉ body) ∨
      lineFeed ∉ (splitLine bytes).1 ∧ (splitLine bytes).2 = [] := by
  induction bytes with
  | nil => exact Or.inr ⟨List.not_mem_nil, rfl⟩
  | cons byte bytes ih =>
    rw [splitLine]
    split
    next ends => exact Or.inl ⟨[], by rw [ends]; rfl, List.not_mem_nil⟩
    next other =>
      have apart : lineFeed ≠ byte := fun same => other same.symm
      rcases ih with ⟨body, line, foreign⟩ | ⟨foreign, last⟩
      · exact Or.inl ⟨byte :: body, congrArg (byte :: ·) line, by simp [apart, foreign]⟩
      · exact Or.inr ⟨by simp [apart, foreign], last⟩

theorem firstLine_splitLine (bytes : List UInt8) :
    FirstLine bytes.toByteArray (splitLine bytes).1.toByteArray := by
  refine ⟨(splitLine bytes).2.toByteArray, ?_, ?_⟩
  · rw [← List.toByteArray_append, splitLine_append]
  · rcases lineFeed_splitLine bytes with ⟨body, line, foreign⟩ | ⟨foreign, last⟩
    · refine Or.inl ⟨body.toByteArray, ?_, by simpa using foreign⟩
      rw [line]
      ext1
      simp
    · exact Or.inr ⟨by simpa using foreign, by rw [last]; rfl⟩

theorem lawful : system.Lawful view where
  content_readFile path desk := by
    change (readFile path desk).2.files = desk.files
    unfold readFile
    split
    · rfl
    · split <;> rfl
  file_readFile _ _ := rfl
  content_writeFile {path desk file} content apart := by
    change (writeFile path content desk).2.files file = desk.files file
    unfold writeFile
    by_cases special : path = standardInput
    · rw [if_pos special]
    · have other : file ≠ path := fun same => apart (by simp [view, special, same])
      rw [if_neg special]
      split <;> simp [put, other]
  content_written {path content desk file} written found := by
    change (writeFile path content desk).2.files file = some content
    change (writeFile path content desk).1 = .ok () at written
    have special : path ≠ standardInput := fun same => by simp [view, same] at found
    obtain rfl : path = file := by simpa [view, special] using found
    unfold writeFile at written ⊢
    rw [if_neg special] at written ⊢
    split at written
    · cases written
    · next room => simp [room, put]
  content_flush _ := rfl
  input_flush _ := rfl
  content_readLine _ := rfl
  line_readLine {desk line} read := by
    obtain rfl : _ = line := Except.ok.inj read
    have whole : desk.input.data.toList.toByteArray = desk.input := by
      ext1
      simp
    have first := firstLine_splitLine desk.input.data.toList
    rwa [whole] at first

end Desk
end SumStar
