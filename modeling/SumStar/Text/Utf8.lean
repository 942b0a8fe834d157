import SumStar.Text.Basic

/-! Texts as bytes in UTF-8. Reading back what was written gives the same text; bytes that are no
encoding of anything are not read at all. Where they are to be shown all the same, each longest piece
that could still have become a character is shown as the replacement character. -/

namespace SumStar.Text

def toBytes (text : Text) : ByteArray :=
  (String.ofList text).toByteArray

def ofBytes? (bytes : ByteArray) : Option Text :=
  bytes.utf8Decode?.map Array.toList

theorem ofBytes?_toBytes (text : Text) : ofBytes? (toBytes text) = some text := by
  simp [ofBytes?, toBytes, List.utf8Decode?_utf8Encode]

theorem toBytes_of_ofBytes? {bytes : ByteArray} {text : Text} (read : ofBytes? bytes = some text) :
    toBytes text = bytes := by
  obtain ⟨characters, decoded, rfl⟩ := Option.map_eq_some_iff.mp read
  have present : bytes.utf8Decode?.isSome = true := by rw [decoded]; rfl
  have encoded := ByteArray.utf8Encode_get_utf8Decode? (b := bytes) (h := present)
  simpa [decoded, toBytes] using encoded

/-- A character of which bytes are missing, and the range in which the next one has to lie. -/
structure Unfinished where
  code : Nat
  missing : Nat
  least : Nat
  most : Nat

def replacement : Char := '\ufffd'

/-- What a byte begins: a character of its own, one that takes more bytes, or none. -/
def begins (byte : UInt8) : Text × Option Unfinished :=
  let code := byte.toNat
  if code < 0x80 then ([Char.ofNat code], none)
  else if 0xC2 ≤ code ∧ code < 0xE0 then ([], some ⟨code - 0xC0, 1, 0x80, 0xBF⟩)
  else if 0xE0 ≤ code ∧ code < 0xF0 then
    ([], some ⟨code - 0xE0, 2, if code = 0xE0 then 0xA0 else 0x80, if code = 0xED then 0x9F else 0xBF⟩)
  else if 0xF0 ≤ code ∧ code < 0xF5 then
    ([], some ⟨code - 0xF0, 3, if code = 0xF0 then 0x90 else 0x80, if code = 0xF4 then 0x8F else 0xBF⟩)
  else ([replacement], none)

def replaceMalformed : Option Unfinished → List UInt8 → Text
  | none, [] => []
  | some _, [] => [replacement]
  | none, byte :: rest =>
    let (text, unfinished) := begins byte
    text ++ replaceMalformed unfinished rest
  | some ⟨code, missing, least, most⟩, byte :: rest =>
    if least ≤ byte.toNat ∧ byte.toNat ≤ most then
      let code := code * 0x40 + (byte.toNat - 0x80)
      if missing = 1 then Char.ofNat code :: replaceMalformed none rest
      else replaceMalformed (some ⟨code, missing - 1, 0x80, 0xBF⟩) rest
    else
      let (text, unfinished) := begins byte
      replacement :: (text ++ replaceMalformed unfinished rest)

end SumStar.Text
