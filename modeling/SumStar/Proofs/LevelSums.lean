import SumStar.Proofs.GroupMemory
import SumStar.Proofs.NestedExchanges
import SumStar.Proofs.Numbering

/-! The sum phase on level expressions. As long as all names are single letters a scan exchanges
every group of words for a letter that stands for it, which leaves a level expression with one level
less, and the last scan exchanges what is left as a whole. So the phase goes on until no `+` is left,
and the meaning is kept. -/

namespace SumStar

open Text

/-- The lowercase letters and the letters handed out. -/
def Issued (position : Nat) (c : Char) : Prop :=
  c.isLower = true ∨ ∃ earlier < position, c = Symbol.letterAt earlier

theorem Issued.mono {position later : Nat} (before : position ≤ later) {c : Char} (issued : Issued position c) :
    Issued later c :=
  issued.imp_right fun ⟨earlier, below, named⟩ => ⟨earlier, Nat.lt_of_lt_of_le below before, named⟩

theorem Issued.isWord {position : Nat} (c : Char) (issued : Issued position c) : isWord c = true := by
  rcases issued with lower | ⟨earlier, _, rfl⟩
  · exact isWord_of_isAlpha (isAlpha_of_isLower lower)
  · exact isWord_of_isAlpha (isAlpha_of_isUpper (Symbol.isUpper_letterAt earlier))

theorem not_issued {position later : Nat} (before : position ≤ later) (first : later < 25) :
    ¬ Issued position (Symbol.letterAt later) := by
  rintro (lower | ⟨earlier, below, named⟩)
  · have upper := Symbol.isUpper_letterAt later
    rw [not_isUpper_of_isLower lower] at upper
    cases upper
  · have same := Symbol.letterAt_injective first (by omega) named
    omega

namespace SumProgress

variable {progress last : SumProgress} {start tree : Nested .sum} {before : Nat}
  {names : List Text → Option Char} {groups : List Text} {words : List Text} {scans : Nat}

/-- Part of a scan of a tree: the groups that have a name have given way to it, and the tree stands
for the same as the one at the start. -/
structure Partly (start tree : Nested .sum) (before : Nat) (names : List Text → Option Char)
    (progress : SumProgress) : Prop where
  numbered : Numbered progress.productions progress.supply
  forgotten : progress.known = []
  later : before ≤ progress.supply.position
  expression : progress.expression = (tree.exchange names).text
  naming : IsNaming (Issued before) names
  issued : ∀ words c, names words = some c → Issued progress.supply.position c
  stands : ∀ valuation : Valuation, valuation.Reads progress.productions →
    ∀ words c, names words = some c → valuation c = valuation.sum words
  means : ∀ valuation : Valuation, valuation.Reads progress.productions →
    tree.meaning valuation = start.meaning valuation

/-- The expression is the text of a level tree that stands for the same as the one at the start. -/
structure Leveled (start tree : Nested .sum) (progress : SumProgress) : Prop where
  numbered : Numbered progress.productions progress.supply
  forgotten : progress.known = []
  written : progress.expression = tree.text
  made : tree.Over (Issued progress.supply.position)
  level : tree.IsLevel
  means : ∀ valuation : Valuation, valuation.Reads progress.productions →
    tree.meaning valuation = start.meaning valuation

/-- The symbols handed out and the `+` that are left, each of which takes one more symbol at most. -/
def load (progress : SumProgress) : Nat :=
  progress.supply.position + progress.expression.count '+'

/-- Names are single letters to the end, because few are handed out or because every name takes a
`+` away and there are few of them. -/
def Roomy (progress last : SumProgress) : Prop :=
  progress.load ≤ 25 ∨ last.supply.position ≤ 25

/-- A step on the way down leaves a level expression, hands a symbol out and adds nothing to the
load. -/
structure Lowers (start : Nested .sum) (progress next : SumProgress) : Prop where
  leveled : ∃ lower, next.Leveled start lower
  load : next.load ≤ progress.load
  further : progress.supply.position < next.supply.position

theorem visit_of_forgotten {group : Text} (forgotten : progress.known = []) (gap : ¬ IsWordly group) :
    progress.visit .scan group = progress.introduce .scan group := by
  have fresh : ¬ progress.supply.isAllocated group = true := fun allocated =>
    gap fun c member => Supply.isWord_of_isAllocated allocated c member
  rw [visit, if_neg fresh, forgotten]
  rfl

theorem not_isWordly_sumText (words : List Text) : ¬ IsWordly (sumText words) := fun wordly => by
  have word := wordly '(' List.mem_cons_self
  rw [isWord_opening] at word
  cases word

theorem reads_introduce {group : Text} (numbered : Numbered progress.productions progress.supply)
    (some : SumGroup.alternatives group ≠ []) (first : progress.supply.position < 25) {valuation : Valuation}
    (reads : valuation.Reads (progress.introduce .scan group).productions) :
    valuation.Reads progress.productions ∧
      valuation (Symbol.letterAt progress.supply.position) = valuation.sum (SumGroup.alternatives group) := by
  have apart := numbered.apart (SumGroup.alternatives group)
  have stands := (Valuation.Reads.right reads apart).equation some
  have named : progress.supply.peek.name = [Symbol.letterAt progress.supply.position] := Symbol.nameAt_of_lt first
  rw [named, Valuation.spell_singleton] at stands
  exact ⟨Valuation.Reads.left reads apart, stands⟩

private theorem isWord_letterAt (position : Nat) : isWord (Symbol.letterAt position) = true :=
  isWord_of_isAlpha (isAlpha_of_isUpper (Symbol.isUpper_letterAt position))

theorem Partly.present (partly : progress.Partly start tree before names) (made : tree.Over (Issued before))
    (member : words ∈ tree.flats) (unnamed : names words = none) :
    sumText words <:+: progress.expression ∧ '+' ∈ sumText words := by
  constructor
  · rw [partly.expression]
    exact Nested.infix_exchange Issued.isWord partly.naming unnamed member
  · obtain ⟨inner, _, _, rfl⟩ := Nested.exists_of_mem_flats made member
    rw [← Nested.text_group]
    exact List.mem_cons_of_mem _ (List.mem_append_left _ inner.plus_mem)

theorem Partly.introduce (partly : progress.Partly start tree before names)
    (made : tree.Over (Issued before)) (member : words ∈ tree.flats) (unnamed : names words = none)
    (first : progress.supply.position < 25) :
    (progress.introduce .scan (sumText words)).Partly start tree before
        (Function.update names words (some (Symbol.letterAt progress.supply.position))) ∧
      (progress.introduce .scan (sumText words)).expression.count '+' < progress.expression.count '+' := by
  obtain ⟨inner, own, flat, same⟩ := Nested.exists_of_mem_flats made member
  have sum : IsSum (Issued before) words := same ▸ Nested.isSum_of_flat own flat
  have alternatives : SumGroup.alternatives (sumText words) = words := alternatives_sumText Issued.isWord sum
  have some : SumGroup.alternatives (sumText words) ≠ [] := by
    rw [alternatives]
    exact sum.any
  have named : progress.supply.peek.name = [Symbol.letterAt progress.supply.position] := Symbol.nameAt_of_lt first
  have word := isWord_letterAt progress.supply.position
  have exchanged : (progress.introduce .scan (sumText words)).expression =
      replaceAll (sumText words) [Symbol.letterAt progress.supply.position] progress.expression :=
    congrArg (replaceAll (sumText words) · progress.expression) named
  refine ⟨⟨numbered_introduce partly.numbered some, partly.forgotten, Nat.le_succ_of_le partly.later, ?_,
    partly.naming.update sum (not_issued partly.later first) word, ?_, ?_, ?_⟩, ?_⟩
  · have whole := Nested.replaceAll_exchange Issued.isWord partly.naming made sum unnamed
      (Symbol.letterAt progress.supply.position) []
    rwa [List.append_nil, replaceAll_nil, List.append_nil, ← partly.expression, ← exchanged] at whole
  · intro other c found
    by_cases here : other = words
    · rw [here, Function.update_self] at found
      cases found
      exact Or.inr ⟨_, Nat.lt_succ_self _, rfl⟩
    · rw [Function.update_of_ne here] at found
      exact (partly.issued other c found).mono (Nat.le_succ _)
  · intro valuation reads other c found
    obtain ⟨old, new⟩ := reads_introduce partly.numbered some first reads
    by_cases here : other = words
    · rw [here, Function.update_self] at found
      cases found
      rw [new, alternatives, here]
    · rw [Function.update_of_ne here] at found
      exact partly.stands valuation old other c found
  · exact fun valuation reads => partly.means valuation (reads_introduce partly.numbered some first reads).1
  · obtain ⟨inside, own⟩ := partly.present made member unnamed
    have foreign : '+' ∉ [Symbol.letterAt progress.supply.position] := fun plus =>
      ne_of_isWord word isWord_plus (List.mem_singleton.mp plus).symm
    rw [exchanged]
    exact count_replaceAll_lt (sumText_ne_nil words) foreign own inside

theorem Roomy.first (room : progress.Roomy last) (plus : '+' ∈ progress.expression)
    (reached : progress.supply.position < last.supply.position) : progress.supply.position < 25 := by
  have positive : 0 < progress.expression.count '+' := List.count_pos_iff.mpr plus
  rcases room with few | few
  · rw [load] at few
    omega
  · omega

theorem Roomy.next {next : SumProgress} (room : progress.Roomy last) (load : next.load ≤ progress.load) :
    next.Roomy last :=
  room.imp_left (Nat.le_trans load)

/-- The groups of a scan are introduced one after the other, and all of them have names then. -/
theorem Partly.foldl (partly : progress.Partly start tree before names) (made : tree.Over (Issued before))
    {pending : List (List Text)} (distinct : (pending.map sumText).Nodup)
    (present : ∀ words ∈ pending, words ∈ tree.flats ∧ names words = none)
    (room : progress.Roomy ((pending.map sumText).foldl (visit .scan) progress)) :
    ∃ all, ((pending.map sumText).foldl (visit .scan) progress).Partly start tree before all ∧
      (∀ words, names words ≠ none ∨ words ∈ pending → all words ≠ none) ∧
      ((pending.map sumText).foldl (visit .scan) progress).load ≤ progress.load ∧
      ((pending.map sumText).foldl (visit .scan) progress).supply.position =
        progress.supply.position + pending.length := by
  induction pending generalizing progress names with
  | nil => exact ⟨names, partly, by simp, Nat.le_refl _, rfl⟩
  | cons words pending ih =>
    obtain ⟨own, distinct⟩ := List.nodup_cons.mp distinct
    obtain ⟨member, unnamed⟩ := present words (by simp)
    obtain ⟨inside, sign⟩ := partly.present made member unnamed
    have visited := visit_of_forgotten partly.forgotten (not_isWordly_sumText words)
    rw [List.map_cons, List.foldl_cons, visited] at room ⊢
    have reached : (progress.introduce .scan (sumText words)).supply.position ≤
        ((pending.map sumText).foldl (visit .scan) (progress.introduce .scan (sumText words))).supply.position :=
      position_foldl_le _ _
    have first : progress.supply.position < 25 := room.first (inside.subset sign) reached
    obtain ⟨kept, fewer⟩ := partly.introduce made member unnamed first
    have position : (progress.introduce .scan (sumText words)).supply.position = progress.supply.position + 1 := rfl
    have less : (progress.introduce .scan (sumText words)).load ≤ progress.load := by
      rw [load, load, position]
      omega
    have later : ∀ other ∈ pending, other ∈ tree.flats ∧
        Function.update names words (some (Symbol.letterAt progress.supply.position)) other = none := by
      intro other inside
      have differ : other ≠ words := fun same => own (List.mem_map.mpr ⟨other, inside, congrArg sumText same⟩)
      rw [Function.update_of_ne differ]
      exact present other (by simp [inside])
    obtain ⟨all, done, named, bound, count⟩ := ih kept distinct later (room.next less)
    refine ⟨all, done, ?_, Nat.le_trans bound less, ?_⟩
    · intro other some
      apply named
      by_cases here : other = words
      · exact Or.inl (by simp [here])
      · rw [Function.update_of_ne here]
        exact some.imp_right fun inside => (List.mem_cons.mp inside).resolve_left here
    · rw [count, position, List.length_cons]
      omega

private theorem exists_pending {all : List (List Text)} (found : ∀ group ∈ groups, group ∈ all.map sumText) :
    ∃ pending : List (List Text), pending.map sumText = groups ∧ ∀ words ∈ pending, words ∈ all := by
  induction groups with
  | nil => exact ⟨[], rfl, by simp⟩
  | cons group groups ih =>
    obtain ⟨pending, same, inside⟩ := ih fun other member => found other (by simp [member])
    obtain ⟨words, member, rfl⟩ := List.mem_map.mp (found group (by simp))
    exact ⟨words :: pending, by rw [List.map_cons, same], List.forall_mem_cons.mpr ⟨member, inside⟩⟩

/-- A scan of a level expression with groups takes the groups of words off. -/
theorem Leveled.scan_of_deep (leveled : progress.Leveled start tree) (deep : 0 < tree.depth)
    (room : progress.Roomy (progress.scan .scan)) : progress.Lowers start (progress.scan .scan) := by
  have made := leveled.made
  have lettered : tree.Over fun c => isWord c = true := made.mono Issued.isWord
  have search : SumGroup.findAll progress.expression = tree.flats.map sumText := by
    have whole : SumGroup.findAll (tree.text ++ []) = tree.flats.map sumText ++ SumGroup.findAll [] :=
      Nested.findAll_text lettered leveled.level.1 deep leveled.level.2 fun _ => SumGroup.stops_nil
    rwa [List.append_nil, ← leveled.written, show SumGroup.findAll [] = [] from rfl, List.append_nil] at whole
  have visited : ∀ group, group ∈ progress.found ↔ group ∈ tree.flats.map sumText := by
    intro group
    rw [found, List.mem_eraseDups, search]
  obtain ⟨pending, same, inside⟩ := exists_pending fun group member => (visited group).mp member
  have run : progress.scan .scan = (pending.map sumText).foldl (visit .scan) progress := by
    rw [same]
    rfl
  have partly : progress.Partly start tree progress.supply.position fun _ => none :=
    ⟨leveled.numbered, leveled.forgotten, Nat.le_refl _, by rw [Nested.exchange_none, leveled.written],
      isNaming_none _, by simp, by simp, leveled.means⟩
  rw [run] at room ⊢
  obtain ⟨all, done, named, bound, count⟩ :=
    partly.foldl made (same ▸ nodup_found) (fun words member => ⟨inside words member, rfl⟩) room
  have summed : ∀ words ∈ tree.flats, IsSum (Issued progress.supply.position) words := by
    intro words member
    obtain ⟨inner, own, flat, rfl⟩ := Nested.exists_of_mem_flats made member
    exact Nested.isSum_of_flat own flat
  have met : ∀ words ∈ tree.flats, words ∈ pending := by
    intro words member
    have group := (visited (sumText words)).mpr (List.mem_map_of_mem member)
    rw [← same] at group
    obtain ⟨other, there, texts⟩ := List.mem_map.mp group
    exact sumText_injective Issued.isWord (summed other (inside other there)) (summed words member) texts ▸ there
  have total : ∀ words ∈ tree.flats, ∃ c, all words = some c := fun words member =>
    Option.ne_none_iff_exists'.mp (named words (Or.inr (met words member)))
  refine ⟨⟨tree.exchange all, done.numbered, done.forgotten, done.expression, ?_, ?_, ?_⟩, bound, ?_⟩
  · exact made.exchange (fun c issued => issued.mono done.later) done.issued
  · exact leveled.level.exchange Issued.isWord done.naming total
  · intro valuation reads
    rw [Nested.meaning_exchange Issued.isWord done.naming (done.stands valuation reads), done.means valuation reads]
  · obtain ⟨words, member⟩ := List.exists_mem_of_ne_nil _ (Nested.flats_ne_nil deep)
    have some := List.length_pos_of_mem (met words member)
    omega

/-- A scan of a sum of words exchanges it as a whole. -/
theorem Leveled.scan_of_flat (leveled : progress.Leveled start tree) (flat : tree.depth = 0)
    (plus : '+' ∈ progress.expression) (room : progress.Roomy (progress.scan .scan)) :
    progress.Lowers start (progress.scan .scan) := by
  have sum : IsSum (Issued progress.supply.position) tree.summands := Nested.isSum_of_flat leveled.made flat
  have gap : ¬ IsWordly progress.expression := fun wordly => wordly.notMem isWord_plus plus
  have search : progress.found = [progress.expression] := by
    rw [found, leveled.written, Nested.findAll_flat Issued.isWord leveled.made flat (leveled.written ▸ plus)]
    rfl
  have run : progress.scan .scan = progress.introduce .scan progress.expression := by
    have once : progress.scan .scan = progress.found.foldl (visit .scan) progress := rfl
    rw [once, search]
    exact visit_of_forgotten leveled.forgotten gap
  rw [run] at room ⊢
  have first : progress.supply.position < 25 := room.first plus (Nat.lt_succ_self _)
  have alternatives : SumGroup.alternatives progress.expression = tree.summands := by
    rw [leveled.written, Nested.text_eq_intercalate]
    exact alternatives_intercalate Issued.isWord sum
  have some : SumGroup.alternatives progress.expression ≠ [] := by
    rw [alternatives]
    exact sum.any
  have named : progress.supply.peek.name = [Symbol.letterAt progress.supply.position] := Symbol.nameAt_of_lt first
  have exchanged : (progress.introduce .scan progress.expression).expression =
      [Symbol.letterAt progress.supply.position] := by
    have whole := replaceAll_append_of_ne_nil (List.ne_nil_of_mem plus) progress.supply.peek.name []
    rw [List.append_nil, replaceAll_nil, List.append_nil] at whole
    exact whole.trans named
  have word := isWord_letterAt progress.supply.position
  refine ⟨⟨.term (.factor (.letter (Symbol.letterAt progress.supply.position))),
    numbered_introduce leveled.numbered some, leveled.forgotten, exchanged, ?_, ?_, ?_⟩, ?_, Nat.lt_succ_self _⟩
  · exact Or.inr ⟨_, Nat.lt_succ_self _, rfl⟩
  · exact ⟨trivial, List.isChain_singleton _⟩
  · intro valuation reads
    obtain ⟨old, new⟩ := reads_introduce leveled.numbered some first reads
    rw [← leveled.means valuation old, Nested.meaning_of_flat flat, ← alternatives, ← new]
    rfl
  · have foreign : [Symbol.letterAt progress.supply.position].count '+' = 0 :=
      List.count_eq_zero.mpr fun plus => ne_of_isWord word isWord_plus (List.mem_singleton.mp plus).symm
    have positive : 0 < progress.expression.count '+' := List.count_pos_iff.mpr plus
    have position : (progress.introduce .scan progress.expression).supply.position =
      progress.supply.position + 1 := rfl
    rw [load, load, exchanged, foreign, position]
    omega

theorem Leveled.scan (leveled : progress.Leveled start tree) (plus : '+' ∈ progress.expression)
    (room : progress.Roomy (progress.scan .scan)) : progress.Lowers start (progress.scan .scan) := by
  rcases Nat.eq_zero_or_pos tree.depth with flat | deep
  · exact leveled.scan_of_flat flat plus room
  · exact leveled.scan_of_deep deep room

/-- The phase goes on until no `+` is left. -/
theorem Leveled.settles (settles : Settles .scan scans progress last) (leveled : progress.Leveled start tree)
    (room : progress.Roomy last) :
    '+' ∉ last.expression ∧ (∃ rest, last.Leveled start rest) ∧ last.load ≤ progress.load := by
  induction settles generalizing tree with
  | reduced none => exact ⟨none, ⟨tree, leveled⟩, Nat.le_refl _⟩
  | stalled plus unchanged =>
    obtain ⟨_, bound, reached⟩ := leveled.scan plus room
    rw [load, load, unchanged] at bound
    omega
  | step plus _ rest ih =>
    have within := room.imp_right (Nat.le_trans rest.position_le)
    obtain ⟨⟨lower, kept⟩, bound, _⟩ := leveled.scan plus within
    obtain ⟨none, leveled, less⟩ := ih kept (room.next bound)
    exact ⟨none, leveled, Nat.le_trans less bound⟩

theorem leveled_initial (lower : start.Over fun c => c.isLower = true) (level : start.IsLevel) :
    (initial start.text {}).Leveled start start :=
  ⟨numbered_nil, rfl, rfl, lower.mono fun _ own => Or.inl own, level, fun _ _ => rfl⟩

/-- Without a `+` no group is left, so the expression is a word. -/
theorem Leveled.spell (leveled : progress.Leveled start tree) (none : '+' ∉ progress.expression) :
    IsWordly progress.expression ∧ ∀ valuation : Valuation, valuation.Reads progress.productions →
      valuation.spell progress.expression = start.meaning valuation := by
  rw [leveled.written] at none ⊢
  have flat : tree.depth = 0 := Nested.depth_eq_zero (Or.inr rfl) none
  have sum : IsSum (Issued progress.supply.position) tree.summands := Nested.isSum_of_flat leveled.made flat
  have single : tree.summands = [tree.text] := by
    rw [← sum.splitOn Issued.isWord, ← Nested.text_eq_intercalate]
    exact List.splitOn_eq_singleton none
  constructor
  · intro c member
    apply Issued.isWord c
    exact sum.composed tree.text (by simp [single]) c member
  · intro valuation reads
    rw [← leveled.means valuation reads, Nested.meaning_of_flat flat, single, Valuation.sum_singleton]

end SumProgress

theorem Nested.isPlain (tree : Nested .sum) (lower : tree.Over fun c => c.isLower = true) :
    ∀ c ∈ tree.text, IsPlain c := by
  intro c member
  rcases Nested.mem_text lower member with own | rfl | parenthesis
  · exact not_isUpper_of_isLower own
  · rfl
  · simp only [isParenthesis, Bool.or_eq_true, beq_iff_eq] at parenthesis
    rcases parenthesis with rfl | rfl <;> rfl

theorem reduceSums_level {start : Nested .sum} (lower : start.Over fun c => c.isLower = true) (level : start.IsLevel)
    {memory : GroupMemory} {sums : Reduction} (answer : reduceSums memory start.text {} = .ok sums)
    (few : sums.supply.position ≤ 25) :
    IsWordly sums.expression ∧ ∀ valuation : Valuation, valuation.Reads sums.productions →
      valuation.spell sums.expression = start.meaning valuation := by
  have scanned := reduceSums_scan_of_ok (start.isPlain lower) answer few
  obtain ⟨scans, last, settles, rfl⟩ := exists_settles_of_reduceSums scanned
  obtain ⟨none, ⟨rest, leveled⟩, _⟩ := (SumProgress.leveled_initial lower level).settles settles (Or.inr few)
  exact leveled.spell none

/-- With few `+` the sum phase succeeds on a level expression. -/
theorem exists_reduceSums_level {start : Nested .sum} (lower : start.Over fun c => c.isLower = true)
    (level : start.IsLevel) (few : start.text.count '+' ≤ 25) (memory : GroupMemory) :
    ∃ sums, reduceSums memory start.text {} = .ok sums := by
  obtain ⟨scans, _, settles⟩ := SumProgress.settles_initial .scan start.text {}
  have room : (SumProgress.initial start.text {}).load ≤ 25 := by
    change 0 + start.text.count '+' ≤ 25
    omega
  obtain ⟨none, _, bound⟩ := (SumProgress.leveled_initial lower level).settles settles (Or.inl room)
  have within : handedOut .scan start.text {} ≤ 25 := by
    have reached := position_add_handedOut .scan start.text {}
    have loaded := Nat.le_trans (Nat.le_add_right _ _) (Nat.le_trans bound room)
    omega
  have scanned : reduceSums .scan start.text {} = .ok _ := if_neg none
  cases memory with
  | scan => exact ⟨_, scanned⟩
  | run =>
    refine ⟨_, (reduceSums_forget (start.isPlain lower) {} ?_).trans scanned⟩
    intro position _ scan _
    change position < 0 + handedOut .scan start.text {} at scan
    omega

end SumStar
