import Mathlib.Data.List.Induction
import SumStar.Pattern.Offence
import SumStar.Proofs.PatternDescent

/-! What the text of a pattern is refused for. The parser stops wherever a reading in one pass stops. Such
a reading holds whole frames, but which token stops it depends on two things only: how many groups are
open and what stands directly in front. Both can be read off the text before the token, so the first
offence is a place of the text and needs no parser to be told. -/

namespace SumStar

namespace Text

/-- The groups that are opened in a text and not closed in it. -/
def openGroups (text : Text) : Nat :=
  text.count '(' - text.count ')'

/-- What the last token leaves for a star. -/
def endsIn (text : Text) : Preceding :=
  match text.getLast? with
  | none => .nothing
  | some c => if c = '(' ∨ c = '|' then .nothing else if c = '*' then .star else .atom

/-- The offence of a character behind a text without any. -/
def offenceAt (before : Text) (c : Char) : Option SyntaxError :=
  if isRefused c then
    some (.invalidToken (.unsupported (escapeCodePoint c)))
  else if c = '*' then
    match endsIn before with
    | .nothing => some .invalidAtomStart
    | .atom => none
    | .star =>
      some (if openGroups before = 0 then .trailingInput (byteLength before) .star else .unexpected "')'".toList .star)
  else if c = ')' ∧ openGroups before = 0 then
    some (.trailingInput (byteLength before) .closing)
  else
    none

/-- No character of the text is an offence where it stands. -/
def Inoffensive (text : Text) : Prop :=
  ∀ before c, before ++ [c] <+: text → offenceAt before c = none

/-- The first offence of a text: that of the first character that is one, or else of the end. -/
inductive Offends : Text → SyntaxError → Prop where
  | character {before after : Text} {c : Char} {error : SyntaxError} : Inoffensive before →
      offenceAt before c = some error → Offends (before ++ c :: after) error
  | unclosed {text : Text} : Inoffensive text → openGroups text ≠ 0 → Offends text .unexpectedEnd

variable {text before rest : Text} {c : Char} {error other : SyntaxError}

theorem inoffensive_nil : Inoffensive [] := by
  intro before c front
  simp at front

theorem Inoffensive.of_prefix (inoffensive : Inoffensive text) (front : before <+: text) : Inoffensive before :=
  fun earlier c inside => inoffensive earlier c (inside.trans front)

theorem Inoffensive.concat (inoffensive : Inoffensive before) (accepted : offenceAt before c = none) :
    Inoffensive (before ++ [c]) := by
  intro earlier d front
  rcases List.prefix_concat_iff.mp front with same | inside
  · obtain ⟨rfl, last⟩ := List.append_inj' same rfl
    obtain rfl := List.singleton_inj.mp last
    exact accepted
  · exact inoffensive earlier d inside

theorem Inoffensive.offenceAt_eq_none (inoffensive : Inoffensive (before ++ c :: rest)) : offenceAt before c = none :=
  inoffensive before c ⟨rest, by simp⟩

theorem Offends.not_inoffensive (offends : Offends text error) :
    ¬ (Inoffensive text ∧ openGroups text = 0) := by
  rintro ⟨inoffensive, closed⟩
  cases offends with
  | character _ found => simp [inoffensive.offenceAt_eq_none] at found
  | unclosed _ left => exact left closed

theorem Offends.eq_of_character (offends : Offends (before ++ c :: rest) error) (inoffensive : Inoffensive before)
    (found : offenceAt before c = some other) : error = other := by
  generalize same : before ++ c :: rest = text at offends
  cases offends with
  | unclosed whole _ =>
    rw [← same] at whole
    simp [whole.offenceAt_eq_none] at found
  | @character earlier after d error calm first =>
    have one : before ++ [c] <+: before ++ c :: rest := ⟨rest, by simp⟩
    have another : earlier ++ [d] <+: before ++ c :: rest := ⟨after, by simp [same]⟩
    rcases Nat.lt_trichotomy before.length earlier.length with shorter | equal | longer
    · have inside : before ++ [c] <+: earlier :=
        List.prefix_of_prefix_length_le one ((List.prefix_append earlier [d]).trans another) (by simp; omega)
      simp [calm before c inside] at found
    · obtain ⟨rfl, tail⟩ := List.append_inj same equal
      obtain ⟨rfl, _⟩ := List.cons.inj tail
      exact Option.some.inj (first.symm.trans found)
    · have inside : earlier ++ [d] <+: before :=
        List.prefix_of_prefix_length_le another ((List.prefix_append before [c]).trans one) (by simp; omega)
      simp [inoffensive earlier d inside] at first

theorem Offends.unique (one : Offends text error) (another : Offends text other) : error = other := by
  cases another with
  | character calm found => exact one.eq_of_character calm found
  | unclosed calm left =>
    cases one with
    | character _ found => simp [calm.offenceAt_eq_none] at found
    | unclosed _ _ => rfl

theorem openGroups_opening (balanced : before.count ')' ≤ before.count '(') :
    openGroups (before ++ ['(']) = openGroups before + 1 := by
  have opened : (before ++ ['(']).count '(' = before.count '(' + 1 := by simp
  have closed : (before ++ ['(']).count ')' = before.count ')' := by simp
  rw [openGroups, opened, closed, openGroups]
  omega

theorem openGroups_closing (before : Text) : openGroups (before ++ [')']) = openGroups before - 1 := by
  have opened : (before ++ [')']).count '(' = before.count '(' := by simp
  have closed : (before ++ [')']).count ')' = before.count ')' + 1 := by simp
  rw [openGroups, opened, closed, openGroups]
  omega

theorem openGroups_other (plain : isParenthesis c = false) (before : Text) :
    openGroups (before ++ [c]) = openGroups before := by
  simp only [isParenthesis, Bool.or_eq_false_iff, beq_eq_false_iff_ne] at plain
  simp [openGroups, List.count_append, plain.1, plain.2]

/-- Without an offence no group is closed that was not opened. -/
theorem Inoffensive.count_le (inoffensive : Inoffensive text) : text.count ')' ≤ text.count '(' := by
  induction text using List.reverseRecOn with
  | nil => exact Nat.le_refl _
  | append_singleton before c ih =>
    have earlier := ih (inoffensive.of_prefix (List.prefix_append before [c]))
    have accepted : offenceAt before c = none := inoffensive before c (List.prefix_refl _)
    by_cases closing : c = ')'
    · subst closing
      have inside : openGroups before ≠ 0 := by
        intro none
        simp [offenceAt, none, isRefused, isControl] at accepted
      have opened : (before ++ [')']).count '(' = before.count '(' := by simp
      have closed : (before ++ [')']).count ')' = before.count ')' + 1 := by simp
      rw [opened, closed]
      unfold openGroups at inside
      omega
    · have closed : (before ++ [c]).count ')' = before.count ')' := by simp [List.count_append, closing]
      rw [closed, List.count_append]
      omega

theorem isRefused_of_ofChar? (found : Token.ofChar? c = none) : isRefused c = true := by
  unfold Token.ofChar? at found
  split at found
  · cases found
  split at found
  · cases found
  split at found
  · cases found
  split at found
  · cases found
  split at found
  · assumption
  · cases found

end Text

open Text

namespace Token

/-- The offence of a token, from what is known of the text in front of it. -/
def offence? (depth : Nat) (preceding : Preceding) (offset : Nat) : Token → Option SyntaxError
  | .char _ | .opening | .bar => none
  | .closing => if depth = 0 then some (.trailingInput offset .closing) else none
  | .star =>
    match preceding with
    | .nothing => some .invalidAtomStart
    | .atom => none
    | .star => some (if depth = 0 then .trailingInput offset .star else .unexpected "')'".toList .star)

def depthBehind (depth : Nat) : Token → Nat
  | .opening => depth + 1
  | .closing => depth - 1
  | _ => depth

/-- What a token leaves for a star. -/
def precedingBehind : Token → Preceding
  | .char _ | .closing => .atom
  | .opening | .bar => .nothing
  | .star => .star

end Token

variable {c : Char} {token : Token} {before text : Text}

theorem Token.ordinary_of_char {d : Char} (found : ofChar? c = some (.char d)) :
    (d ≠ '(' ∧ d ≠ ')' ∧ d ≠ '|' ∧ d ≠ '*') ∧ isRefused d = false := by
  obtain rfl : d = c := toChar_of_ofChar? found
  simpa using isLiteral_iff.mp (beq_iff_eq.mpr found)

theorem firstOffence_cons (found : Token.ofChar? c = some token) (depth : Nat) (preceding : Preceding)
    (offset : Nat) (rest : Text) :
    firstOffence depth preceding offset (c :: rest) =
      match token.offence? depth preceding offset with
      | some error => some error
      | none => firstOffence (token.depthBehind depth) token.precedingBehind (offset + c.utf8Size) rest := by
  simp only [firstOffence, found]
  cases token with
  | char _ | opening | bar => rfl
  | closing => by_cases outside : depth = 0 <;> simp [Token.offence?, Token.depthBehind, Token.precedingBehind, outside]
  | star =>
    cases preceding with
    | nothing | atom => rfl
    | star => by_cases outside : depth = 0 <;> simp [Token.offence?, outside]

theorem Token.offenceAt_eq (found : ofChar? c = some token) (before : Text) :
    offenceAt before c = token.offence? (openGroups before) (endsIn before) (byteLength before) := by
  obtain rfl := toChar_of_ofChar? found
  cases token with
  | char c =>
    obtain ⟨⟨_, closing, _, star⟩, accepted⟩ := ordinary_of_char found
    simp [offenceAt, toChar, offence?, closing, star, accepted]
  | closing =>
    have accepted : isRefused ')' = false := by decide
    simp [offenceAt, toChar, offence?, accepted]
  | opening | bar | star => rfl

theorem Token.endsIn_concat (found : ofChar? c = some token) (before : Text) :
    endsIn (before ++ [c]) = token.precedingBehind := by
  obtain rfl := toChar_of_ofChar? found
  cases token with
  | char c =>
    obtain ⟨⟨opening, _, bar, star⟩, _⟩ := ordinary_of_char found
    simp [endsIn, toChar, precedingBehind, opening, bar, star]
  | opening | bar | closing | star => simp [endsIn, toChar, precedingBehind]

theorem Token.openGroups_concat (found : ofChar? c = some token) (inoffensive : Inoffensive before) :
    openGroups (before ++ [c]) = token.depthBehind (openGroups before) := by
  obtain rfl := toChar_of_ofChar? found
  cases token with
  | char c =>
    obtain ⟨⟨opening, closing, _, _⟩, _⟩ := ordinary_of_char found
    exact openGroups_other (by simp [isParenthesis, toChar, opening, closing]) before
  | opening => exact openGroups_opening inoffensive.count_le
  | closing => exact openGroups_closing before
  | bar | star => exact openGroups_other rfl before

/-- The scan behind a text without offences finds the first offence of the whole text. -/
theorem firstOffence_cases (inoffensive : Inoffensive before) (rest : Text) :
    let answer := firstOffence (openGroups before) (endsIn before) (byteLength before) rest
    (answer = none ∧ Inoffensive (before ++ rest) ∧ openGroups (before ++ rest) = 0) ∨
      ∃ error, answer = some error ∧ Offends (before ++ rest) error := by
  induction rest generalizing before with
  | nil =>
    rw [List.append_nil]
    by_cases closed : openGroups before = 0
    · exact Or.inl ⟨by simp [firstOffence, closed], inoffensive, closed⟩
    · exact Or.inr ⟨_, by simp [firstOffence, closed], .unclosed inoffensive closed⟩
  | cons c rest ih =>
    cases found : Token.ofChar? c with
    | none =>
      have offence : offenceAt before c = some (.invalidToken (.unsupported (escapeCodePoint c))) := by
        simp [offenceAt, isRefused_of_ofChar? found]
      exact Or.inr ⟨_, by simp [firstOffence, found], .character inoffensive offence⟩
    | some token =>
      have here := Token.offenceAt_eq found before
      simp only [firstOffence_cons found, ← here]
      cases offence : offenceAt before c with
      | some error => exact Or.inr ⟨error, rfl, .character inoffensive offence⟩
      | none =>
        have bytes : byteLength (before ++ [c]) = byteLength before + c.utf8Size := byteLength_append before [c]
        have later := ih (inoffensive.concat offence)
        rw [bytes, Token.endsIn_concat found, Token.openGroups_concat found inoffensive] at later
        simpa using later

/-- The scan of a whole text answers its first offence, and nothing if there is none. -/
theorem firstOffence_iff (text : Text) :
    (firstOffence 0 .nothing 0 text = none ↔ Inoffensive text ∧ openGroups text = 0) ∧
      ∀ error, firstOffence 0 .nothing 0 text = some error ↔ Offends text error := by
  have cases := firstOffence_cases inoffensive_nil text
  rw [List.nil_append] at cases
  rcases cases with ⟨missed, calm⟩ | ⟨error, found, offends⟩
  · refine ⟨⟨fun _ => calm, fun _ => missed⟩, fun error => ⟨?_, fun offends => absurd calm offends.not_inoffensive⟩⟩
    intro found
    cases missed.symm.trans found
  · refine ⟨⟨?_, fun calm => absurd calm offends.not_inoffensive⟩, fun other => ⟨?_, ?_⟩⟩
    · intro missed
      cases missed.symm.trans found
    · intro same
      obtain rfl := Option.some.inj (found.symm.trans same)
      exact offends
    · intro same
      rw [same.unique offends]
      exact found

/-- What a reading leaves for a star: its frame ends in a factor that was starred or not, or has
none since the last bar. -/
def Frame.preceding (frame : Frame) : Preceding :=
  match frame.factors with
  | [] => .nothing
  | .atom _ :: _ => .atom
  | .zeroOrMore _ :: _ => .star

namespace Reading

theorem step_eq (reading : Reading) (offset : Nat) (token : Token) :
    match token.offence? reading.around.length reading.frame.preceding offset with
    | some error => reading.step offset token = .error error
    | none => ∃ next, reading.step offset token = .ok next ∧
        next.around.length = token.depthBehind reading.around.length ∧
        next.frame.preceding = token.precedingBehind := by
  obtain ⟨⟨alternatives, factors⟩, around⟩ := reading
  cases token with
  | char _ | bar | opening => exact ⟨_, rfl, rfl, rfl⟩
  | closing =>
    cases around with
    | nil => rfl
    | cons _ _ => exact ⟨_, rfl, rfl, rfl⟩
  | star =>
    cases factors with
    | nil => rfl
    | cons factor _ =>
      cases factor with
      | atom _ => exact ⟨_, rfl, rfl, rfl⟩
      | zeroOrMore _ => cases around <;> rfl

/-- A reading fails exactly as the scan that counts its frames. -/
theorem read_cases (reading : Reading) (offset : Nat) (text : Text) :
    let answer := firstOffence reading.around.length reading.frame.preceding offset text
    (answer = none ∧ ∃ pattern, reading.read offset text = .ok pattern) ∨
      ∃ error, answer = some error ∧ reading.read offset text = .error error := by
  induction text generalizing reading offset with
  | nil =>
    obtain ⟨frame, around⟩ := reading
    cases around with
    | nil => exact Or.inl ⟨rfl, _, rfl⟩
    | cons _ _ => exact Or.inr ⟨_, rfl, rfl⟩
  | cons c rest ih =>
    cases found : Token.ofChar? c with
    | none => exact Or.inr ⟨_, by simp [firstOffence, found], read_refused found reading offset rest⟩
    | some token =>
      have taken := reading.step_eq offset token
      rw [read_cons found]
      simp only [firstOffence_cons found]
      cases offence : token.offence? reading.around.length reading.frame.preceding offset with
      | some error =>
        rw [offence] at taken
        exact Or.inr ⟨error, rfl, by rw [taken]; rfl⟩
      | none =>
        rw [offence] at taken
        obtain ⟨next, answer, depth, preceding⟩ := taken
        have later := ih next (offset + c.utf8Size)
        rw [depth, preceding] at later
        rw [answer]
        exact later

end Reading

/-- A pattern is read exactly where nothing offends, and refused for the first offence. A scan that
counts groups and looks one token back finds it, and it is told by the text in front of it alone. -/
theorem parse_refuses_first_offence (text : Text) :
    ((∃ pattern, Pattern.parse text = .ok pattern) ↔ firstOffence 0 .nothing 0 text = none) ∧
    (∀ error, Pattern.parse text = .error error ↔ firstOffence 0 .nothing 0 text = some error) ∧
    (firstOffence 0 .nothing 0 text = none ↔ Inoffensive text ∧ openGroups text = 0) ∧
    ∀ error, firstOffence 0 .nothing 0 text = some error ↔ Offends text error := by
  obtain ⟨calm, offends⟩ := firstOffence_iff text
  rw [Pattern.parse_eq_read]
  refine ⟨?_, ?_, calm, offends⟩
  · rcases Reading.read_cases {} 0 text with ⟨missed, pattern, answer⟩ | ⟨error, found, answer⟩
    · exact ⟨fun _ => missed, fun _ => ⟨pattern, answer⟩⟩
    · refine ⟨fun ⟨pattern, other⟩ => ?_, fun missed => ?_⟩
      · cases answer.symm.trans other
      · cases found.symm.trans missed
  · intro error
    rcases Reading.read_cases {} 0 text with ⟨missed, pattern, answer⟩ | ⟨other, found, answer⟩
    · refine ⟨fun refused => ?_, fun present => ?_⟩
      · cases answer.symm.trans refused
      · cases missed.symm.trans present
    · refine ⟨fun refused => ?_, fun present => ?_⟩
      · obtain rfl := Except.error.inj (answer.symm.trans refused)
        exact found
      · obtain rfl := Option.some.inj (found.symm.trans present)
        exact answer

/-- Behind a letter of two bytes and a closed group, a second star is refused at byte five. -/
example : Pattern.parse ['é', '(', ')', '*', '*'] = .error (.trailingInput 5 .star) := by cbv

end SumStar
