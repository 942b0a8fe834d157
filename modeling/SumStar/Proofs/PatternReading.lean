import SumStar.Pattern.Reading
import SumStar.Pattern.Printer

/-! Reading and writing patterns undo each other. What a reading holds is written as the text read
so far, so a finished reading is a tree that is written as the whole text; and the text of a
canonical tree takes a reading through one frame, whatever stands around it and behind it. -/

namespace SumStar

namespace Text

theorem byteLength_cons (c : Char) (text : Text) : byteLength (c :: text) = c.utf8Size + byteLength text := rfl

theorem byteLength_append (first second : Text) :
    byteLength (first ++ second) = byteLength first + byteLength second := by
  induction first with
  | nil => simp [byteLength]
  | cons c first ih => rw [List.cons_append, byteLength_cons, byteLength_cons, ih, Nat.add_assoc]

end Text

namespace Token

/-- The character a token is written as. -/
def toChar : Token → Char
  | .char c => c
  | .opening => '('
  | .closing => ')'
  | .bar => '|'
  | .star => '*'

theorem toChar_of_ofChar? {c : Char} {token : Token} (found : ofChar? c = some token) :
    token.toChar = c := by
  unfold ofChar? at found
  split at found
  · cases found; symm; assumption
  split at found
  · cases found; symm; assumption
  split at found
  · cases found; symm; assumption
  split at found
  · cases found; symm; assumption
  split at found
  · cases found
  · cases found; rfl

theorem isLiteral_iff {c : Char} :
    isLiteral c = true ↔ c ∉ ['(', ')', '|', '*'] ∧ Text.isRefused c = false := by
  unfold isLiteral ofChar?
  simp only [List.mem_cons, List.not_mem_nil, or_false, not_or]
  split
  · simp_all
  split
  · simp_all
  split
  · simp_all
  split
  · simp_all
  · cases Text.isRefused c <;> simp_all

theorem ofChar?_of_isLiteral {c : Char} (literal : isLiteral c = true) : ofChar? c = some (.char c) :=
  beq_iff_eq.mp literal

end Token

namespace Term

theorem print_ofFactors : ∀ factors : List Factor, (ofFactors factors).print = factors.flatMap Factor.print
  | [] => rfl
  | [last] => by simp [ofFactors, print]
  | first :: next :: rest => by
    rw [ofFactors, print, print_ofFactors (next :: rest)]
    rfl

theorem isCanonical_ofFactors : ∀ {factors : List Factor},
    (∀ factor ∈ factors, factor.isCanonical = true) → (ofFactors factors).isCanonical = true
  | [], _ => rfl
  | [last], each => each last (by simp)
  | first :: next :: rest, each => by
    have present : (ofFactors (next :: rest)).isEmpty = false := by cases rest <;> rfl
    have later : (ofFactors (next :: rest)).isCanonical = true :=
      isCanonical_ofFactors fun factor member => each factor (by simp [List.mem_cons.mp member])
    simp [ofFactors, isCanonical, each first (by simp), present, later]

/-- The factors of a term, first to last. -/
def factors : Term → List Factor
  | .empty => []
  | .factor last => [last]
  | .concatenation first others => first :: others.factors

theorem ofFactors_factors : ∀ {term : Term}, term.isCanonical = true → ofFactors term.factors = term
  | .empty, _ => rfl
  | .factor _, _ => rfl
  | .concatenation first others, canonical => by
    simp only [isCanonical, Bool.and_eq_true, Bool.not_eq_true'] at canonical
    have same := ofFactors_factors canonical.2
    cases others with
    | empty => simp [isEmpty] at canonical
    | factor last => rfl
    | concatenation next rest =>
      simp only [factors] at same ⊢
      rw [ofFactors, same]

end Term

namespace Pattern

theorem print_ofTerms (last : Term) (earlier : List Term) :
    (ofTerms last earlier).print = earlier.reverse.flatMap (fun term => term.print ++ ['|']) ++ last.print := by
  have general : ∀ pattern : Pattern,
      (earlier.foldl (fun pattern term => .alternation term pattern) pattern).print =
        earlier.reverse.flatMap (fun term => term.print ++ ['|']) ++ pattern.print := by
    induction earlier with
    | nil => intro pattern; rfl
    | cons term earlier ih =>
      intro pattern
      rw [List.foldl_cons, ih]
      simp [print]
  exact general (.term last)

theorem isCanonical_ofTerms {last : Term} {earlier : List Term} (final : last.isCanonical = true)
    (each : ∀ term ∈ earlier, term.isCanonical = true) : (ofTerms last earlier).isCanonical = true := by
  have general : ∀ pattern : Pattern, pattern.isCanonical = true →
      (earlier.foldl (fun pattern term => .alternation term pattern) pattern).isCanonical = true := by
    induction earlier with
    | nil => exact fun _ canonical => canonical
    | cons term earlier ih =>
      intro pattern canonical
      apply ih fun other member => each other (by simp [member])
      simp [isCanonical, canonical, each term (by simp)]
  exact general (.term last) final

end Pattern

namespace Frame

structure IsCanonical (frame : Frame) : Prop where
  alternatives : ∀ term ∈ frame.alternatives, term.isCanonical = true
  factors : ∀ factor ∈ frame.factors, factor.isCanonical = true

/-- The text a frame was read from. -/
def print (frame : Frame) : Text :=
  frame.alternatives.reverse.flatMap (fun term => term.print ++ ['|']) ++
    frame.factors.reverse.flatMap Factor.print

theorem isCanonical_empty : IsCanonical {} :=
  ⟨by simp, by simp⟩

theorem IsCanonical.push {frame : Frame} (canonical : frame.IsCanonical) {factor : Factor}
    (one : factor.isCanonical = true) : (frame.push factor).IsCanonical := by
  refine ⟨canonical.alternatives, ?_⟩
  intro other member
  rcases List.mem_cons.mp member with rfl | earlier
  · exact one
  · exact canonical.factors other earlier

theorem IsCanonical.openTerm {frame : Frame} (canonical : frame.IsCanonical) :
    frame.openTerm.isCanonical = true :=
  Term.isCanonical_ofFactors fun factor member => canonical.factors factor (List.mem_reverse.mp member)

theorem IsCanonical.nextAlternative {frame : Frame} (canonical : frame.IsCanonical) :
    frame.nextAlternative.IsCanonical := by
  refine ⟨?_, by simp [Frame.nextAlternative]⟩
  intro term member
  rcases List.mem_cons.mp member with rfl | earlier
  · exact canonical.openTerm
  · exact canonical.alternatives term earlier

theorem IsCanonical.pattern {frame : Frame} (canonical : frame.IsCanonical) :
    frame.pattern.isCanonical = true :=
  Pattern.isCanonical_ofTerms canonical.openTerm canonical.alternatives

theorem print_openTerm (frame : Frame) : frame.openTerm.print = frame.factors.reverse.flatMap Factor.print :=
  Term.print_ofFactors _

theorem print_push (frame : Frame) (factor : Factor) : (frame.push factor).print = frame.print ++ factor.print := by
  simp [push, print]

theorem print_nextAlternative (frame : Frame) : frame.nextAlternative.print = frame.print ++ ['|'] := by
  simp [nextAlternative, print, print_openTerm]

theorem print_pattern (frame : Frame) : frame.pattern.print = frame.print := by
  rw [pattern, Pattern.print_ofTerms, print_openTerm, print]

end Frame

namespace Reading

structure IsCanonical (reading : Reading) : Prop where
  frame : reading.frame.IsCanonical
  around : ∀ frame ∈ reading.around, frame.IsCanonical

def printAround (around : List Frame) (inner : Text) : Text :=
  around.foldl (fun inner outer => outer.print ++ '(' :: inner) inner

/-- The text a reading was read from, with the parentheses that are still open. -/
def print (reading : Reading) : Text :=
  printAround reading.around reading.frame.print

theorem printAround_append (around : List Frame) (inner rest : Text) :
    printAround around (inner ++ rest) = printAround around inner ++ rest := by
  induction around generalizing inner with
  | nil => rfl
  | cons outer around ih =>
    simp only [printAround, List.foldl_cons] at ih ⊢
    rw [← List.cons_append, ← List.append_assoc, ih]

variable {reading next : Reading} {offset : Nat}

private theorem star_kept (canonical : reading.IsCanonical) (taken : reading.star offset = .ok next) :
    next.print = reading.print ++ ['*'] ∧ next.IsCanonical := by
  obtain ⟨⟨alternatives, factors⟩, around⟩ := reading
  cases factors with
  | nil => cases taken
  | cons factor factors =>
    cases factor with
    | zeroOrMore _ => cases around <;> cases taken
    | atom atom =>
      cases taken
      refine ⟨?_, ?_, canonical.around⟩
      · rw [print, print, ← printAround_append]
        simp [Frame.print, Factor.print]
      · refine ⟨canonical.frame.alternatives, ?_⟩
        intro other member
        rcases List.mem_cons.mp member with rfl | earlier
        · exact canonical.frame.factors (.atom atom) (by simp)
        · exact canonical.frame.factors other (by simp [earlier])

/-- A token that is taken adds its character to the text and nothing else. -/
theorem step_kept {c : Char} {token : Token} (found : Token.ofChar? c = some token)
    (canonical : reading.IsCanonical) (taken : reading.step offset token = .ok next) :
    next.print = reading.print ++ [c] ∧ next.IsCanonical := by
  obtain rfl := Token.toChar_of_ofChar? found
  cases token with
  | char c =>
    cases taken
    refine ⟨?_, canonical.frame.push (beq_iff_eq.mpr found), canonical.around⟩
    rw [print, print, ← printAround_append, Frame.print_push]
    rfl
  | bar =>
    cases taken
    refine ⟨?_, canonical.frame.nextAlternative, canonical.around⟩
    rw [print, print, ← printAround_append, Frame.print_nextAlternative]
    rfl
  | opening =>
    cases taken
    refine ⟨?_, Frame.isCanonical_empty, ?_⟩
    · rw [print, print, ← printAround_append]
      rfl
    · intro frame member
      rcases List.mem_cons.mp member with rfl | outer
      · exact canonical.frame
      · exact canonical.around frame outer
  | closing =>
    obtain ⟨frame, around⟩ := reading
    cases around with
    | nil => cases taken
    | cons outer around =>
      cases taken
      refine ⟨?_, ?_, fun other member => canonical.around other (by simp [member])⟩
      · rw [print, print, ← printAround_append, Frame.print_push]
        simp [printAround, Factor.print, Atom.print, Frame.print_pattern, Token.toChar]
      · exact (canonical.around outer (by simp)).push canonical.frame.pattern
  | star => exact star_kept canonical taken

theorem print_of_read {pattern : Pattern} {text : Text} (canonical : reading.IsCanonical)
    (answer : reading.read offset text = .ok pattern) :
    pattern.print = reading.print ++ text ∧ pattern.isCanonical = true := by
  induction text generalizing reading offset with
  | nil =>
    obtain ⟨frame, around⟩ := reading
    cases around with
    | nil =>
      cases answer
      exact ⟨by simp [Frame.print_pattern, print, printAround], canonical.frame.pattern⟩
    | cons _ _ => cases answer
  | cons c rest ih =>
    simp only [read] at answer
    cases found : Token.ofChar? c with
    | none => simp [found] at answer
    | some token =>
      simp only [found] at answer
      cases taken : reading.step offset token with
      | error _ => rw [taken] at answer; cases answer
      | ok next =>
        rw [taken] at answer
        obtain ⟨added, kept⟩ := step_kept found canonical taken
        obtain ⟨whole, last⟩ := ih kept answer
        exact ⟨by rw [whole, added, List.append_assoc]; rfl, last⟩

end Reading

namespace Frame

def appendFactors (frame : Frame) (factors : List Factor) : Frame :=
  { frame with factors := factors.reverse ++ frame.factors }

/-- What becomes of a frame when the text of a pattern is read into it. -/
def feed (frame : Frame) : Pattern → Frame
  | .term last => frame.appendFactors last.factors
  | .alternation first others => (frame.appendFactors first.factors).nextAlternative.feed others

private theorem pattern_feed_general : ∀ {pattern : Pattern}, pattern.isCanonical = true →
    ∀ earlier : List Term, (feed ⟨earlier, []⟩ pattern).pattern =
      earlier.foldl (fun pattern term => .alternation term pattern) pattern
  | .term last, canonical, earlier => by
    simp only [Pattern.isCanonical] at canonical
    simp [feed, appendFactors, Frame.pattern, openTerm, Pattern.ofTerms, Term.ofFactors_factors canonical]
  | .alternation first others, canonical, earlier => by
    simp only [Pattern.isCanonical, Bool.and_eq_true] at canonical
    simp only [feed, appendFactors, nextAlternative, openTerm, List.append_nil, List.reverse_reverse,
      Term.ofFactors_factors canonical.1]
    exact pattern_feed_general canonical.2 (first :: earlier)

theorem pattern_feed {pattern : Pattern} (canonical : pattern.isCanonical = true) :
    (feed {} pattern).pattern = pattern :=
  pattern_feed_general canonical []

end Frame

namespace Reading

theorem read_cons {c : Char} {token : Token} (found : Token.ofChar? c = some token) (reading : Reading)
    (offset : Nat) (rest : Text) :
    reading.read offset (c :: rest) = (do
      let next ← reading.step offset token
      next.read (offset + c.utf8Size) rest) := by
  rw [read]
  simp only [found]

theorem read_char {c : Char} (literal : Token.isLiteral c = true) (frame : Frame) (around : List Frame)
    (offset : Nat) (rest : Text) :
    read ⟨frame, around⟩ offset (c :: rest) =
      read ⟨frame.push (.atom (.char c)), around⟩ (offset + c.utf8Size) rest :=
  read_cons (Token.ofChar?_of_isLiteral literal) _ _ _

theorem read_bar (frame : Frame) (around : List Frame) (offset : Nat) (rest : Text) :
    read ⟨frame, around⟩ offset ('|' :: rest) =
      read ⟨frame.nextAlternative, around⟩ (offset + '|'.utf8Size) rest :=
  read_cons (show Token.ofChar? '|' = some .bar from rfl) _ _ _

theorem read_opening (frame : Frame) (around : List Frame) (offset : Nat) (rest : Text) :
    read ⟨frame, around⟩ offset ('(' :: rest) =
      read ⟨{}, frame :: around⟩ (offset + '('.utf8Size) rest :=
  read_cons (show Token.ofChar? '(' = some .opening from rfl) _ _ _

theorem read_closing (frame outer : Frame) (around : List Frame) (offset : Nat) (rest : Text) :
    read ⟨frame, outer :: around⟩ offset (')' :: rest) =
      read ⟨outer.push (.atom (.parentheses frame.pattern)), around⟩ (offset + ')'.utf8Size) rest :=
  read_cons (show Token.ofChar? ')' = some .closing from rfl) _ _ _

theorem read_star (frame : Frame) (atom : Atom) (around : List Frame) (offset : Nat) (rest : Text) :
    read ⟨frame.push (.atom atom), around⟩ offset ('*' :: rest) =
      read ⟨frame.push (.zeroOrMore atom), around⟩ (offset + '*'.utf8Size) rest :=
  read_cons (show Token.ofChar? '*' = some .star from rfl) _ _ _

end Reading

/-! The text of a canonical node is taken without a look at what follows: the rest may be anything,
a star behind an atom included. -/

mutual

theorem Pattern.read_print : ∀ {pattern : Pattern}, pattern.isCanonical = true →
    ∀ (frame : Frame) (around : List Frame) (offset : Nat) (rest : Text),
    Reading.read ⟨frame, around⟩ offset (pattern.print ++ rest) =
      Reading.read ⟨frame.feed pattern, around⟩ (offset + Text.byteLength pattern.print) rest
  | .term _, canonical, frame, around, offset, rest => Term.read_print canonical frame around offset rest
  | .alternation first others, canonical, frame, around, offset, rest => by
    simp only [Pattern.isCanonical, Bool.and_eq_true] at canonical
    rw [Pattern.print, List.append_assoc, List.cons_append, Term.read_print canonical.1, Reading.read_bar,
      Pattern.read_print canonical.2, Text.byteLength_append, Text.byteLength_cons, Frame.feed]
    congr 1
    omega

theorem Term.read_print : ∀ {term : Term}, term.isCanonical = true →
    ∀ (frame : Frame) (around : List Frame) (offset : Nat) (rest : Text),
    Reading.read ⟨frame, around⟩ offset (term.print ++ rest) =
      Reading.read ⟨frame.appendFactors term.factors, around⟩ (offset + Text.byteLength term.print) rest
  | .empty, _, _, _, _, _ => rfl
  | .factor _, canonical, frame, around, offset, rest => Factor.read_print canonical frame around offset rest
  | .concatenation first others, canonical, frame, around, offset, rest => by
    simp only [Term.isCanonical, Bool.and_eq_true] at canonical
    rw [Term.print, List.append_assoc, Factor.read_print canonical.1.1, Term.read_print canonical.2,
      Text.byteLength_append, Nat.add_assoc]
    simp [Frame.appendFactors, Frame.push, Term.factors]

theorem Factor.read_print : ∀ {factor : Factor}, factor.isCanonical = true →
    ∀ (frame : Frame) (around : List Frame) (offset : Nat) (rest : Text),
    Reading.read ⟨frame, around⟩ offset (factor.print ++ rest) =
      Reading.read ⟨frame.push factor, around⟩ (offset + Text.byteLength factor.print) rest
  | .atom _, canonical, frame, around, offset, rest => Atom.read_print canonical frame around offset rest
  | .zeroOrMore atom, canonical, frame, around, offset, rest => by
    rw [Factor.print, List.append_assoc, Atom.read_print canonical, List.singleton_append, Reading.read_star,
      Text.byteLength_append]
    rfl

theorem Atom.read_print : ∀ {atom : Atom}, atom.isCanonical = true →
    ∀ (frame : Frame) (around : List Frame) (offset : Nat) (rest : Text),
    Reading.read ⟨frame, around⟩ offset (atom.print ++ rest) =
      Reading.read ⟨frame.push (.atom atom), around⟩ (offset + Text.byteLength atom.print) rest
  | .char c, canonical, frame, around, offset, rest => Reading.read_char canonical frame around offset rest
  | .parentheses pattern, canonical, frame, around, offset, rest => by
    simp only [Atom.isCanonical] at canonical
    rw [Atom.print, List.cons_append, List.append_assoc, Reading.read_opening, Pattern.read_print canonical,
      List.singleton_append, Reading.read_closing, Frame.pattern_feed canonical, Text.byteLength_cons,
      Text.byteLength_append]
    congr 1
    simp only [Text.byteLength_cons]
    simp [Text.byteLength]
    omega

end

end SumStar
