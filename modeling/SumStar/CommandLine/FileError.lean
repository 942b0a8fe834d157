import SumStar.Text.Utf8

/-! Why a file cannot be read or written, in the words and numbers of the operating system. -/

namespace SumStar

inductive FileError where
  | notFound
  | permissionDenied
  | notDirectory
  | isDirectory
  | nameTooLong
  | notText
  | other (code : Nat) (description : Text)
  deriving DecidableEq, Repr

namespace FileError

def message : FileError → Text
  | notFound => "No such file or directory (os error 2)".toList
  | permissionDenied => "Permission denied (os error 13)".toList
  | notDirectory => "Not a directory (os error 20)".toList
  | isDirectory => "Is a directory (os error 21)".toList
  | nameTooLong => "File name too long (os error 36)".toList
  | notText => "stream did not contain valid UTF-8".toList
  | other code description =>
    description ++ " (os error ".toList ++ Nat.toDigits 10 code ++ [')']

end FileError

def Text.decode (bytes : ByteArray) : Except FileError Text :=
  match ofBytes? bytes with
  | some text => .ok text
  | none => .error .notText

namespace Text

theorem decode_toBytes (text : Text) : decode (toBytes text) = .ok text := by
  rw [decode, ofBytes?_toBytes]

theorem decode_cases (bytes : ByteArray) :
    (∃ text, bytes = toBytes text) ∨ (∀ text, bytes ≠ toBytes text) ∧ decode bytes = .error .notText := by
  cases read : ofBytes? bytes with
  | some text => exact Or.inl ⟨text, (toBytes_of_ofBytes? read).symm⟩
  | none =>
    refine Or.inr ⟨fun text same => ?_, by rw [decode, read]⟩
    rw [same, ofBytes?_toBytes] at read
    cases read

end Text
end SumStar
