import SumStar.Pattern.Parser
import SumStar.Proofs.PatternReading

/-! The parser answers what a reading in one pass answers. What a part of the parser takes off the text
is a canonical tree that is written as just that, and a reading passes over it through one frame. What
a part fails for, a reading that has come there fails for as well: a refused character that was looked
at and left alone is the next thing that is taken, and no token is left over that the reading would
have accepted. -/

namespace SumStar

/-- The token a text begins with, if it begins with one. -/
def Token.first? (text : Text) : Option Token :=
  text.head?.bind Token.ofChar?

theorem Token.opensAtom_of_endsTerm : ∀ {token : Token}, token.endsTerm = true → token.opensAtom = false
  | .bar, _ => rfl
  | .closing, _ => rfl

namespace Lexeme

variable {offset : Nat} {c : Char} {lexeme : Lexeme} {cause : TokenError}

theorem token_of_ofChar (first : ofChar offset c = .ok lexeme) : Token.ofChar? c = some lexeme.token := by
  unfold ofChar at first
  split at first
  next token found => cases first; exact found
  next => cases first

theorem offset_of_ofChar (first : ofChar offset c = .ok lexeme) : lexeme.offset = offset := by
  unfold ofChar at first
  split at first
  next => cases first; rfl
  next => cases first

theorem refused_of_ofChar (first : ofChar offset c = .error cause) :
    Token.ofChar? c = none ∧ cause = .unsupported (Text.escapeCodePoint c) := by
  unfold ofChar at first
  split at first
  next => cases first
  next found => cases first; exact ⟨found, rfl⟩

end Lexeme

namespace Lexer

/-- The lexer goes on with the text, whether or not its first token was looked at. -/
def At (lexer : Lexer) (text : Text) (offset : Nat) : Prop :=
  lexer.next = (Lexer.mk text offset none).next

section

variable {lexer peeked behind : Lexer} {text : Text} {offset : Nat} {item : Except TokenError Lexeme}
  {seen? : Option (Except TokenError Lexeme)}

theorem At.of_peek (here : lexer.At text offset) (seen : lexer.peek = (seen?, peeked)) : peeked.At text offset := by
  rw [At, (next_of_peek seen).1]
  exact here

theorem At.eq_nil_of_next (here : lexer.At text offset) (taken : lexer.next.1 = none) : text = [] := by
  cases text with
  | nil => rfl
  | cons c rest =>
    rw [here] at taken
    cases taken

theorem At.exists_of_next (here : lexer.At text offset) (taken : lexer.next = (some item, behind)) :
    ∃ c rest, text = c :: rest ∧ Lexeme.ofChar offset c = item ∧ behind.At rest (offset + c.utf8Size) := by
  cases text with
  | nil =>
    rw [here] at taken
    cases taken
  | cons c rest =>
    rw [here] at taken
    cases taken
    exact ⟨c, rest, rfl, rfl, rfl⟩

theorem At.exists_of_peek (here : lexer.At text offset) (seen : lexer.peek = (some item, peeked)) :
    ∃ c rest, text = c :: rest ∧ Lexeme.ofChar offset c = item ∧ peeked.next.2.At rest (offset + c.utf8Size) := by
  obtain ⟨same, first⟩ := next_of_peek seen
  apply here.exists_of_next
  rw [same, ← first]

theorem At.seen_eq (here : lexer.At text offset) (seen : lexer.peek = (seen?, peeked)) :
    seen? = text.head?.map (Lexeme.ofChar offset) := by
  rw [← (next_of_peek seen).2, here]
  cases text <;> rfl

theorem At.sees_eq (here : lexer.At text offset) (seen : lexer.peek = (seen?, peeked)) (property : Token → Bool) :
    sees seen? property = (Token.first? text).any property := by
  rw [here.seen_eq seen]
  cases text with
  | nil => rfl
  | cons c rest =>
    simp only [sees, Token.first?, Lexeme.ofChar, List.head?_cons, Option.map_some, Option.any_some, Option.bind_some]
    cases Token.ofChar? c <;> rfl

theorem At.seen_of_first (here : lexer.At text offset) (seen : lexer.peek = (seen?, peeked)) {token : Token}
    (first : Token.first? text = some token) : seen? = some (.ok ⟨offset, token⟩) := by
  rw [here.seen_eq seen]
  cases text with
  | nil => cases first
  | cons c rest =>
    have known : Token.ofChar? c = some token := first
    simp [Lexeme.ofChar, known]

theorem At.over_iff (here : lexer.At text offset) (seen : lexer.peek = (seen?, peeked)) :
    (seen?.isNone || sees seen? Token.endsTerm) = true ↔
      text = [] ∨ ∃ token, Token.first? text = some token ∧ token.endsTerm = true := by
  rw [here.sees_eq seen, here.seen_eq seen]
  cases text with
  | nil => simp
  | cons c rest => cases Token.first? (c :: rest) <;> simp

end

end Lexer

/-- The frame ends in a starred factor. -/
def Frame.IsStarred (frame : Frame) : Prop :=
  ∃ atom factors, frame.factors = .zeroOrMore atom :: factors

/-- A factor takes a star that follows it. -/
def Factor.Ends (factor : Factor) (rest : Text) : Prop :=
  Token.first? rest = some .star → ∃ atom, factor = .zeroOrMore atom

/-- A term takes every factor that follows it. -/
structure Term.Ends (term : Term) (rest : Text) : Prop where
  stops : ∀ token ∈ Token.first? rest, token.opensAtom = false
  starred : Token.first? rest = some .star → ∀ frame : Frame, (frame.appendFactors term.factors).IsStarred

/-- An expression takes every alternative that follows it. -/
structure Pattern.Ends (pattern : Pattern) (rest : Text) : Prop where
  stops : ∀ token ∈ Token.first? rest, token = .closing ∨ token = .star
  starred : Token.first? rest = some .star → ∀ frame : Frame, (frame.feed pattern).IsStarred

/-- What a part of the parser is to answer for a text. A star at the front of the text is an offence only
to a frame that has no factor yet. -/
def Answers {α : Type} {limit : Nat} (print : α → Text) (canonical : α → Bool) (ends : α → Text → Prop)
    (text : Text) (offset : Nat) : Except SyntaxError (Parsed α limit) → Prop
  | .error cause => ∀ (frame : Frame) (around : List Frame), (Token.first? text = some .star → frame.factors = []) →
      Reading.read ⟨frame, around⟩ offset text = .error cause
  | .ok parsed => canonical parsed.value = true ∧ ∃ rest, text = print parsed.value ++ rest ∧
      parsed.lexer.At rest (offset + Text.byteLength (print parsed.value)) ∧ ends parsed.value rest

namespace Reading

variable {frame : Frame}

theorem read_refused {c : Char} (found : Token.ofChar? c = none) (reading : Reading) (offset : Nat) (rest : Text) :
    reading.read offset (c :: rest) = .error (.invalidToken (.unsupported (Text.escapeCodePoint c))) := by
  rw [read, found]

theorem read_starred_outside (starred : frame.IsStarred) (offset : Nat) (rest : Text) :
    read ⟨frame, []⟩ offset ('*' :: rest) = .error (.trailingInput offset .star) := by
  obtain ⟨atom, factors, last⟩ := starred
  rw [read_cons (show Token.ofChar? '*' = some .star from rfl), step, star, last]
  rfl

theorem read_starred_inside (starred : frame.IsStarred) (outer : Frame) (around : List Frame) (offset : Nat)
    (rest : Text) :
    read ⟨frame, outer :: around⟩ offset ('*' :: rest) = .error (.unexpected "')'".toList .star) := by
  obtain ⟨atom, factors, last⟩ := starred
  rw [read_cons (show Token.ofChar? '*' = some .star from rfl), step, star, last]
  rfl

theorem read_bare_star (bare : frame.factors = []) (around : List Frame) (offset : Nat) (rest : Text) :
    read ⟨frame, around⟩ offset ('*' :: rest) = .error .invalidAtomStart := by
  rw [read_cons (show Token.ofChar? '*' = some .star from rfl), step, star, bare]
  rfl

end Reading

namespace Answers

variable {α β : Type} {limit most : Nat} {print : α → Text} {canonical : α → Bool} {ends : α → Text → Prop}
  {other : β → Text} {whole : β → Bool} {stops : β → Text → Prop} {text left : Text} {offset middle : Nat}
  {answer : Except SyntaxError (Parsed α limit)} {next : Parsed α limit → Except SyntaxError (Parsed β most)}

/-- A part of the parser that starts further on in the text, where a reading comes as well. -/
theorem bind (back : Answers print canonical ends left middle answer)
    (passes : ∀ (frame : Frame) (around : List Frame), (Token.first? text = some .star → frame.factors = []) →
      ∃ (later : Frame) (outside : List Frame), (Token.first? left = some .star → later.factors = []) ∧
        Reading.read ⟨frame, around⟩ offset text = Reading.read ⟨later, outside⟩ middle left)
    (step : ∀ parsed, answer = .ok parsed → Answers print canonical ends left middle (.ok parsed) →
      Answers other whole stops text offset (next parsed)) :
    Answers other whole stops text offset (answer >>= next) := by
  cases answer with
  | error cause =>
    intro frame around bare
    obtain ⟨later, outside, still, same⟩ := passes frame around bare
    rw [same]
    exact back later outside still
  | ok parsed => exact step parsed rfl back

theorem bind_front (front : Answers print canonical ends text offset answer)
    (step : ∀ parsed, answer = .ok parsed → Answers print canonical ends text offset (.ok parsed) →
      Answers other whole stops text offset (next parsed)) :
    Answers other whole stops text offset (answer >>= next) :=
  front.bind (fun frame around bare => ⟨frame, around, bare, rfl⟩) step

/-- A factor in front of the term that follows it. -/
theorem concatenation {factor : Factor} {others : Parsed Term limit} (one : factor.isCanonical = true)
    (opens : (Token.first? left).any Token.opensAtom = true)
    (back : Answers Term.print Term.isCanonical Term.Ends left (offset + Text.byteLength factor.print) (.ok others))
    (closer : others.lexer.unread < most) :
    Answers Term.print Term.isCanonical Term.Ends (factor.print ++ left) offset
      (.ok (Parsed.mk (.concatenation factor others.value) others.lexer closer)) := by
  obtain ⟨rest, tail, rfl, beyond, ends⟩ := back
  have nonempty : others.value.isEmpty = false := by
    cases term : others.value with
    | empty =>
      rw [term] at opens
      obtain ⟨token, first⟩ := Option.isSome_iff_exists.mp (Option.isSome_of_any opens)
      rw [first, Option.any_some] at opens
      cases (ends.stops token first).symm.trans opens
    | factor _ | concatenation _ _ => rfl
  refine ⟨by simp [Term.isCanonical, one, rest, nonempty], tail, by simp [Term.print], ?_, ends.stops, ?_⟩
  · rw [Term.print, Text.byteLength_append, ← Nat.add_assoc]
    exact beyond
  · intro star frame
    have later := ends.starred star (frame.push factor)
    simpa [Frame.appendFactors, Frame.push, Term.factors] using later

theorem alternation {term : Term} {others : Parsed Pattern limit} (first : term.isCanonical = true)
    (back : Answers Pattern.print Pattern.isCanonical Pattern.Ends left
      (offset + Text.byteLength term.print + '|'.utf8Size) (.ok others))
    (closer : others.lexer.unread < most) :
    Answers Pattern.print Pattern.isCanonical Pattern.Ends (term.print ++ '|' :: left) offset
      (.ok (Parsed.mk (.alternation term others.value) others.lexer closer)) := by
  obtain ⟨rest, tail, rfl, beyond, ends⟩ := back
  refine ⟨by simp [Pattern.isCanonical, first, rest], tail, by simp [Pattern.print], ?_, ends.stops, ?_⟩
  · rw [Pattern.print, Text.byteLength_append, Text.byteLength_cons, ← Nat.add_assoc, ← Nat.add_assoc]
    exact beyond
  · exact fun star frame => ends.starred star _

theorem parentheses {inner : Pattern} {lexer : Lexer} (one : inner.isCanonical = true)
    (beyond : lexer.At left (offset + '('.utf8Size + Text.byteLength inner.print + ')'.utf8Size))
    (closer : lexer.unread < most) :
    Answers Atom.print Atom.isCanonical (fun _ _ => True) ('(' :: (inner.print ++ ')' :: left)) offset
      (.ok (Parsed.mk (.parentheses inner) lexer closer)) := by
  refine ⟨one, left, by simp [Atom.print], ?_, trivial⟩
  have bytes : Text.byteLength (Atom.parentheses inner).print =
      '('.utf8Size + Text.byteLength inner.print + ')'.utf8Size := by
    rw [Atom.print, Text.byteLength_cons, Text.byteLength_append, Nat.add_assoc]
    rfl
  rw [bytes, ← Nat.add_assoc, ← Nat.add_assoc]
  exact beyond

end Answers

namespace Lexer

theorem takeClosing_cases {lexer : Lexer} {text : Text} {offset : Nat} {pattern : Pattern}
    (here : lexer.At text offset) (ends : pattern.Ends text) :
    (∃ behind rest, lexer.takeClosing = .ok behind ∧ text = ')' :: rest ∧ behind.1.At rest (offset + ')'.utf8Size)) ∨
      ∃ cause, lexer.takeClosing = .error cause ∧ ∀ frame outer around,
        Reading.read ⟨Frame.feed frame pattern, outer :: around⟩ offset text = .error cause := by
  unfold takeClosing
  split
  next taken =>
    obtain rfl := here.eq_nil_of_next (congrArg Prod.fst taken)
    exact Or.inr ⟨_, rfl, fun _ _ _ => rfl⟩
  next cause _ taken =>
    obtain ⟨c, rest, rfl, first, _⟩ := here.exists_of_next taken
    obtain ⟨unknown, rfl⟩ := Lexeme.refused_of_ofChar first
    exact Or.inr ⟨_, rfl, fun _ _ _ => Reading.read_refused unknown _ _ _⟩
  next lexeme behind taken =>
    obtain ⟨c, rest, rfl, first, there⟩ := here.exists_of_next taken
    have known := Lexeme.token_of_ofChar first
    split
    next closing =>
      rw [closing] at known
      obtain rfl : ')' = c := Token.toChar_of_ofChar? known
      exact Or.inl ⟨_, rest, rfl, rfl, there⟩
    next other =>
      have star : lexeme.token = .star := (ends.stops _ known).resolve_left other
      rw [star] at known
      obtain rfl : '*' = c := Token.toChar_of_ofChar? known
      refine Or.inr ⟨_, rfl, fun frame outer around => ?_⟩
      rw [star]
      exact Reading.read_starred_inside (ends.starred rfl frame) outer around offset rest

mutual

theorem parseAtom_answers {lexer : Lexer} {text : Text} {offset : Nat} (here : lexer.At text offset)
    (present : text ≠ []) (starts : ∀ token ∈ Token.first? text, token.endsTerm = false) :
    Answers Atom.print Atom.isCanonical (fun _ _ => True) text offset lexer.parseAtom := by
  rw [parseAtom]
  split
  next seen => exact absurd (here.eq_nil_of_next (next_of_peek seen).2) present
  next cause _ seen =>
    obtain ⟨c, rest, rfl, first, _⟩ := here.exists_of_peek seen
    obtain ⟨unknown, rfl⟩ := Lexeme.refused_of_ofChar first
    exact fun frame around _ => Reading.read_refused unknown _ _ _
  next lexeme peeked seen =>
    obtain ⟨c, rest, rfl, first, behind⟩ := here.exists_of_peek seen
    have closer := unread_of_peek_next seen
    have found := Lexeme.token_of_ofChar first
    have start := starts _ found
    cases same : lexeme.token with
    | char d =>
      rw [same] at found
      obtain rfl : d = c := Token.toChar_of_ofChar? found
      exact ⟨beq_iff_eq.mpr found, rest, rfl, behind, trivial⟩
    | opening =>
      rw [same] at found
      obtain rfl : '(' = c := Token.toChar_of_ofChar? found
      refine (parseExpression_answers behind).bind
        (fun frame around _ => ⟨{}, frame :: around, fun _ => rfl, Reading.read_opening _ _ _ _⟩) ?_
      rintro inner - ⟨canonical, left, rfl, there, ends⟩
      rcases takeClosing_cases there ends with ⟨after, tail, taken, rfl, beyond⟩ | ⟨cause, refused, fails⟩
      · simp only [bind, Except.bind, taken]
        exact Answers.parentheses canonical beyond _
      · simp only [bind, Except.bind, refused]
        intro frame around _
        rw [Reading.read_opening, Pattern.read_print canonical]
        exact fails {} frame around
    | star =>
      rw [same] at found
      obtain rfl : '*' = c := Token.toChar_of_ofChar? found
      exact fun frame around bare => Reading.read_bare_star (bare rfl) around offset rest
    | bar | closing =>
      rw [same] at start
      cases start
termination_by 4 * lexer.unread

theorem parseFactor_answers {lexer : Lexer} {text : Text} {offset : Nat} (here : lexer.At text offset)
    (present : text ≠ []) (starts : ∀ token ∈ Token.first? text, token.endsTerm = false) :
    Answers Factor.print Factor.isCanonical Factor.Ends text offset lexer.parseFactor := by
  rw [parseFactor]
  refine (parseAtom_answers here present starts).bind_front ?_
  rintro atom - ⟨canonical, left, rfl, there, _⟩
  split
  next cause _ seen =>
    obtain ⟨c, rest, rfl, first, _⟩ := there.exists_of_peek seen
    obtain ⟨unknown, rfl⟩ := Lexeme.refused_of_ofChar first
    intro frame around _
    rw [Atom.read_print canonical]
    exact Reading.read_refused unknown _ _ _
  next place peeked seen =>
    obtain ⟨c, rest, rfl, first, behind⟩ := there.exists_of_peek seen
    obtain rfl : '*' = c := Token.toChar_of_ofChar? (Lexeme.token_of_ofChar first)
    refine ⟨canonical, rest, by simp [Factor.print], ?_, fun _ => ⟨_, rfl⟩⟩
    rw [Factor.print, Text.byteLength_append, ← Nat.add_assoc]
    exact behind
  next seen? peeked _ unstarred seen =>
    refine ⟨canonical, left, rfl, there.of_peek seen, fun star => ?_⟩
    exact (unstarred _ (there.seen_of_first seen star)).elim
termination_by 4 * lexer.unread + 1

theorem parseTerm_answers {lexer : Lexer} {text : Text} {offset : Nat} (here : lexer.At text offset) :
    Answers Term.print Term.isCanonical Term.Ends text offset lexer.parseTerm := by
  rw [parseTerm]
  split
  next item peeked seen =>
    have same := unread_of_peek seen
    split
    next ends =>
      have last : ∀ token ∈ Token.first? text, token.endsTerm = true := by
        intro token first
        rcases (here.over_iff seen).mp ends with rfl | ⟨other, found, ended⟩
        · cases first
        · cases found.symm.trans first
          exact ended
      refine ⟨rfl, text, rfl, here.of_peek seen, fun token first => Token.opensAtom_of_endsTerm (last token first), ?_⟩
      intro star
      cases last .star star
    next going =>
      rw [here.over_iff seen, not_or] at going
      have starts : ∀ token ∈ Token.first? text, token.endsTerm = false :=
        fun token first => Bool.eq_false_iff.mpr fun ended => going.2 ⟨token, first, ended⟩
      refine (parseFactor_answers (here.of_peek seen) going.1 starts).bind_front ?_
      rintro factor - ⟨canonical, left, rfl, there, ends⟩
      have closer := factor.closer
      split
      next item ahead follows =>
        have kept := unread_of_peek follows
        rw [there.sees_eq follows]
        split
        next opens =>
          refine (parseTerm_answers (there.of_peek follows)).bind (fun frame around _ => ?_) fun others _ back =>
            Answers.concatenation canonical opens back _
          refine ⟨frame.push factor.value, around, fun star => ?_, Factor.read_print canonical _ _ _ _⟩
          rw [star] at opens
          cases opens
        next closed =>
          refine ⟨canonical, left, rfl, there.of_peek follows, fun token first => ?_, fun star frame => ?_⟩
          · rw [Option.mem_def.mp first, Option.any_some, Bool.not_eq_true] at closed
            exact closed
          · obtain ⟨atom, starred⟩ := ends star
            exact ⟨atom, frame.factors, by rw [starred]; rfl⟩
termination_by 4 * lexer.unread + 2

theorem parseExpression_answers {lexer : Lexer} {text : Text} {offset : Nat} (here : lexer.At text offset) :
    Answers Pattern.print Pattern.isCanonical Pattern.Ends text offset lexer.parseExpression := by
  rw [parseExpression]
  refine (parseTerm_answers here).bind_front ?_
  rintro term - ⟨canonical, left, rfl, there, ends⟩
  have closer := term.closer
  split
  next place peeked seen =>
    have nearer := unread_of_peek_next seen
    obtain ⟨c, rest, rfl, first, behind⟩ := there.exists_of_peek seen
    obtain rfl : '|' = c := Token.toChar_of_ofChar? (Lexeme.token_of_ofChar first)
    refine (parseExpression_answers behind).bind (fun frame around _ => ?_) fun others _ back =>
      Answers.alternation canonical back _
    refine ⟨(frame.appendFactors term.value.factors).nextAlternative, around, fun _ => rfl, ?_⟩
    rw [Term.read_print canonical, Reading.read_bar]
  next seen? peeked unbarred seen =>
    refine ⟨canonical, left, rfl, there.of_peek seen, fun token first => ?_, ends.starred⟩
    have closed := ends.stops token first
    cases token with
    | char _ | opening => cases closed
    | bar => exact (unbarred _ (there.seen_of_first seen first)).elim
    | closing => exact Or.inl rfl
    | star => exact Or.inr rfl
termination_by 4 * lexer.unread + 3

end

end Lexer

namespace Pattern

/-- Behind a whole expression, whatever is left over is what the reading stops at. -/
theorem read_left_over {pattern : Pattern} {lexer : Lexer} {left : Text} {offset : Nat}
    (canonical : pattern.isCanonical = true) (there : lexer.At left offset) (ends : pattern.Ends left) :
    Reading.read ⟨Frame.feed {} pattern, []⟩ offset left =
      match lexer.next.1 with
      | none => .ok pattern
      | some (.ok lexeme) => .error (.trailingInput lexeme.offset lexeme.token)
      | some (.error cause) => .error (.invalidToken cause) := by
  rcases taken : lexer.next with ⟨item, behind⟩
  cases item with
  | none =>
    obtain rfl := there.eq_nil_of_next (congrArg Prod.fst taken)
    exact congrArg Except.ok (Frame.pattern_feed canonical)
  | some item =>
    obtain ⟨c, rest, rfl, first, _⟩ := there.exists_of_next taken
    cases item with
    | error cause =>
      obtain ⟨unknown, rfl⟩ := Lexeme.refused_of_ofChar first
      exact Reading.read_refused unknown _ _ _
    | ok lexeme =>
      obtain ⟨place, token⟩ := lexeme
      have known : Token.ofChar? c = some token := Lexeme.token_of_ofChar first
      obtain rfl : place = offset := Lexeme.offset_of_ofChar first
      rcases ends.stops token known with rfl | rfl
      · exact Reading.read_cons known _ _ _
      · obtain rfl : '*' = c := Token.toChar_of_ofChar? known
        exact Reading.read_starred_outside (ends.starred known {}) _ _

/-- The parser by descent and the reading in one pass give the same answer for every text. -/
theorem parse_eq_read (text : Text) : parse text = Reading.read {} 0 text := by
  have whole := Lexer.parseExpression_answers (show (Lexer.mk text 0 none).At text 0 from rfl)
  rw [parse]
  cases answer : (Lexer.mk text 0 none).parseExpression with
  | error cause =>
    rw [answer] at whole
    exact (whole {} [] fun _ => rfl).symm
  | ok expression =>
    rw [answer] at whole
    obtain ⟨canonical, left, same, there, ends⟩ := whole
    calc
      _ = Reading.read ⟨Frame.feed {} expression.value, []⟩ _ left := (read_left_over canonical there ends).symm
      _ = Reading.read {} 0 (expression.value.print ++ left) := (read_print canonical {} [] 0 left).symm
      _ = Reading.read {} 0 text := congrArg (Reading.read {} 0) same.symm

theorem parse_print {pattern : Pattern} (canonical : pattern.isCanonical = true) :
    parse pattern.print = .ok pattern := by
  have whole := read_print canonical {} [] 0 []
  rw [List.append_nil] at whole
  rw [parse_eq_read, whole, Reading.read, Reading.finish, Frame.pattern_feed canonical]

theorem print_of_parse {pattern : Pattern} {text : Text} (answer : parse text = .ok pattern) :
    pattern.print = text ∧ pattern.isCanonical = true := by
  rw [parse_eq_read] at answer
  exact Reading.print_of_read ⟨Frame.isCanonical_empty, by simp⟩ answer

end Pattern
end SumStar
