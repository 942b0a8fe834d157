import SumStar.Text.Utf8

/-! Paths are what the operating system takes them for, bytes. Most are texts, but need not be. -/

namespace SumStar

structure Path where
  bytes : List UInt8
  deriving DecidableEq, Repr

namespace Path

def ofText (text : Text) : Path :=
  ⟨(Text.toBytes text).data.toList⟩

/-- The path as it is shown. -/
def display (path : Path) : Text :=
  (Text.ofBytes? path.bytes.toByteArray).getD (Text.replaceMalformed none path.bytes)

theorem toByteArray_ofText (text : Text) : (ofText text).bytes.toByteArray = Text.toBytes text := by
  apply ByteArray.ext
  simp [ofText]

theorem display_ofText (text : Text) : (ofText text).display = text := by
  rw [display, toByteArray_ofText, Text.ofBytes?_toBytes, Option.getD_some]

end Path
end SumStar
