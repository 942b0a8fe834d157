/-! Texts are lists of characters, so every operation on them is structural recursion and a
closed instance can be computed by the kernel. Byte lengths are those of UTF-8. -/

namespace SumStar

abbrev Text := List Char

namespace Text

/-- Texts can be looked up in lists of texts. -/
instance : LawfulBEq Text := inferInstance

def isParenthesis (c : Char) : Bool :=
  c == '(' || c == ')'

def withoutParentheses (text : Text) : Text :=
  text.filter fun c => !isParenthesis c

theorem withoutParentheses_append (first second : Text) :
    withoutParentheses (first ++ second) = withoutParentheses first ++ withoutParentheses second :=
  List.filter_append first second

/-- The number of bytes the text takes in UTF-8. -/
def byteLength : Text → Nat
  | [] => 0
  | c :: rest => c.utf8Size + byteLength rest

end Text
end SumStar
