import SumStar.Proofs.GrammarLanguage
import SumStar.Proofs.StarPlaces
import SumStar.Proofs.StarShape
import SumStar.Reduction.Stars

/-! How many stars the star phase leaves. The stars of a text end its stretches. An exchange of a group takes
the star of every stretch that ends with the group, and puts what is left of the stretch in front of
the next one. So a stretch that is left ends as it did, and each star whose group was found is taken
by the exchange of this group at the latest. Others are taken only if a name becomes part of a group. -/

namespace SumStar

namespace Text

variable {stretch front first name rest text piece : Text} {behind : Text → Bool} {c : Char}

theorem stretch_induction {motive : Text → Prop} (last : ∀ stretch, '*' ∉ stretch → motive stretch)
    (star : ∀ stretch rest, '*' ∉ stretch → motive rest → motive (stretch ++ '*' :: rest)) (text : Text) :
    motive text := by
  induction size : text.length using Nat.strongRecOn generalizing text with
  | ind size ih =>
    by_cases starred : '*' ∈ text
    · obtain ⟨stretch, rest, rfl, starless⟩ := List.eq_append_cons_of_mem starred
      exact star stretch rest starless (ih rest.length (by simp at size; omega) rest rfl)
    · exact last text starred

theorem suffix_of_suffix_append_cons (foreign : c ∉ piece) (ends : piece <:+ first ++ c :: rest) : piece <:+ rest := by
  rcases List.suffix_or_suffix_of_suffix ends (List.suffix_append first (c :: rest)) with short | long
  · rcases List.suffix_cons_iff.mp short with rfl | inside
    · exact False.elim (foreign List.mem_cons_self)
    · exact inside
  · exact False.elim (foreign (long.subset List.mem_cons_self))

theorem eq_of_star_front (one : '*' ∉ front) (other : '*' ∉ stretch)
    (begins : front ++ ['*'] <+: stretch ++ '*' :: rest) : front = stretch := by
  obtain ⟨further, same⟩ := begins
  rw [List.append_assoc, List.singleton_append] at same
  have cut := congrArg (List.takeWhile (· ≠ '*')) same
  rwa [takeWhile_front one, takeWhile_front other] at cut

/-- A stretch that ends with the front of a group loses it, and its star. -/
theorem replaceAll_taken (starless : '*' ∉ first ++ front) (name rest : Text) :
    replaceAll (front ++ ['*']) name (first ++ front ++ '*' :: rest) =
      first ++ (name ++ replaceAll (front ++ ['*']) name rest) := by
  induction first with
  | nil =>
    have present : front ++ ['*'] ≠ [] := by simp
    have found := replaceAll_append_of_ne_nil present name rest
    rwa [List.append_assoc] at found
  | cons c first ih =>
    have later : '*' ∉ first ++ front := fun member => starless (List.mem_cons_of_mem c member)
    have absent : ¬ front ++ ['*'] <+: c :: first ++ front ++ '*' :: rest := by
      intro begins
      have same := eq_of_star_front (fun member => later (List.mem_append_right first member)) starless begins
      have length := congrArg List.length same
      simp at length
      omega
    rw [List.cons_append, List.cons_append] at absent ⊢
    rw [replaceAll_cons_of_absent absent, ih later, List.cons_append]

/-- A stretch that ends otherwise is passed with its star. -/
theorem replaceAll_passed (one : '*' ∉ front) (starless : '*' ∉ stretch) (apart : ¬ front <:+ stretch)
    (name rest : Text) :
    replaceAll (front ++ ['*']) name (stretch ++ '*' :: rest) =
      stretch ++ '*' :: replaceAll (front ++ ['*']) name rest := by
  have absent : ¬ front ++ ['*'] <+: stretch ++ '*' :: rest := fun begins =>
    apart (eq_of_star_front one starless begins ▸ List.suffix_refl _)
  induction stretch with
  | nil => exact replaceAll_cons_of_absent absent name
  | cons c stretch ih =>
    have later : '*' ∉ stretch := fun member => starless (List.mem_cons_of_mem c member)
    have shorter : ¬ front <:+ stretch := fun ends => apart (ends.trans (List.suffix_cons c stretch))
    have missed : ¬ front ++ ['*'] <+: stretch ++ '*' :: rest := fun begins =>
      shorter (eq_of_star_front one later begins ▸ List.suffix_refl _)
    rw [List.cons_append] at absent ⊢
    rw [replaceAll_cons_of_absent absent, ih later shorter missed, List.cons_append]

/-- An exchange of a group takes a stretch that ends with its front, or passes it. -/
theorem exchange_cases (one : '*' ∉ front) (starless : '*' ∉ stretch) (name rest : Text) :
    (∃ first, '*' ∉ first ∧ front.isSuffixOf stretch = true ∧
        replaceAll (front ++ ['*']) name (stretch ++ '*' :: rest) =
          first ++ name ++ replaceAll (front ++ ['*']) name rest) ∨
      (front.isSuffixOf stretch = false ∧
        replaceAll (front ++ ['*']) name (stretch ++ '*' :: rest) =
          stretch ++ '*' :: replaceAll (front ++ ['*']) name rest) := by
  by_cases ends : front <:+ stretch
  · have taken : front.isSuffixOf stretch = true := List.isSuffixOf_iff_suffix.mpr ends
    obtain ⟨first, rfl⟩ := ends
    refine Or.inl ⟨first, fun member => starless (List.mem_append_left front member), taken, ?_⟩
    rw [replaceAll_taken starless, List.append_assoc]
  · have passed : front.isSuffixOf stretch = false := by
      rwa [← Bool.not_eq_true, List.isSuffixOf_iff_suffix]
    exact Or.inr ⟨passed, replaceAll_passed one starless ends name rest⟩

theorem exchange_of_starless (starless : '*' ∉ text) (front name : Text) :
    replaceAll (front ++ ['*']) name text = text :=
  replaceAll_of_absent (by simp) fun inside => starless (inside.subset (by simp))

/-- The number of the stars that stand behind a text of the given kind. -/
def stars (behind : Text → Bool) (text : Text) : Nat :=
  (starPlaces behind text).length

/-- A kind of texts that only looks back as far as to a star. -/
def LooksBack (behind : Text → Bool) : Prop :=
  ∀ first rest, behind (first ++ '*' :: rest) = behind rest

theorem stars_append (behind : Text → Bool) (first rest : Text) :
    stars behind (first ++ rest) = stars behind first + stars (fun before => behind (first ++ before)) rest := by
  rw [stars, starPlaces_append, List.length_append, List.length_map]
  rfl

theorem stars_of_notMem (starless : '*' ∉ text) : stars behind text = 0 := by
  rw [stars, starPlaces_of_notMem starless]
  rfl

theorem stars_mono {other : Text → Bool} (wider : ∀ before, behind before = true → other before = true)
    (text : Text) : stars behind text ≤ stars other text := by
  simp only [stars, starPlaces, ← List.countP_eq_length_filter]
  apply List.countP_mono_left
  intro place _ counted
  obtain ⟨star, taken⟩ := Bool.and_eq_true_iff.mp counted
  exact Bool.and_eq_true_iff.mpr ⟨star, wider _ taken⟩

theorem stars_stretch (back : LooksBack behind) (starless : '*' ∉ stretch) (rest : Text) :
    stars behind (stretch ++ '*' :: rest) = (if behind stretch = true then 1 else 0) + stars behind rest := by
  have same : (fun before => behind (stretch ++ ['*'] ++ before)) = behind := by
    funext before
    rw [List.append_assoc, List.singleton_append, back]
  rw [← List.singleton_append, ← List.append_assoc, stars_append, same, stars, starPlaces_concat starless]
  by_cases taken : behind stretch = true <;> simp [taken]

theorem looksBack_isSuffixOf (starless : '*' ∉ front) : LooksBack front.isSuffixOf := by
  intro first rest
  rw [Bool.eq_iff_iff, List.isSuffixOf_iff_suffix, List.isSuffixOf_iff_suffix]
  refine ⟨suffix_of_suffix_append_cons starless, fun ends => ?_⟩
  exact ends.trans ((List.suffix_cons '*' rest).trans (List.suffix_append first _))

section Exchange

variable {name : Text} (starless : '*' ∉ front) (plain : '*' ∉ name)
include starless plain

/-- An exchange takes the stars of the stretches that end with its group, and no others. -/
theorem count_exchange (text : Text) :
    (replaceAll (front ++ ['*']) name text).count '*' + stars front.isSuffixOf text = text.count '*' := by
  have own := looksBack_isSuffixOf starless
  induction text using stretch_induction with
  | last stretch none => rw [exchange_of_starless none, stars_of_notMem none, Nat.add_zero]
  | star stretch rest none ih =>
    rw [stars_stretch own none, List.count_append, List.count_cons_self, List.count_eq_zero_of_not_mem none]
    rcases exchange_cases starless none name rest with ⟨first, short, taken, same⟩ | ⟨passed, same⟩
    · rw [same, if_pos taken, List.count_append, List.count_append, List.count_eq_zero_of_not_mem short,
        List.count_eq_zero_of_not_mem plain]
      omega
    · rw [same, passed, if_neg Bool.false_ne_true, List.count_append, List.count_cons_self,
        List.count_eq_zero_of_not_mem none]
      omega

variable (back : LooksBack behind)
include back

omit plain in
variable (name) in
/-- It leaves the stars of another kind, if the kind does not mind what is put in front. -/
theorem stars_exchange_le (longer : ∀ first rest, behind rest = true → behind (first ++ rest) = true) (text : Text) :
    stars (fun before => front.isSuffixOf before || behind before) text ≤
      stars front.isSuffixOf text + stars behind (replaceAll (front ++ ['*']) name text) := by
  have own := looksBack_isSuffixOf starless
  have both : LooksBack fun before => front.isSuffixOf before || behind before := fun first rest => by
    simp only [own first rest, back first rest]
  induction text using stretch_induction with
  | last stretch none =>
    rw [stars_of_notMem none]
    exact Nat.zero_le _
  | star stretch rest none ih =>
    rw [stars_stretch both none, stars_stretch own none]
    rcases exchange_cases starless none name rest with ⟨first, _, taken, same⟩ | ⟨passed, same⟩
    · have kept : stars behind (replaceAll (front ++ ['*']) name rest) ≤
          stars behind (first ++ name ++ replaceAll (front ++ ['*']) name rest) := by
        rw [stars_append]
        exact Nat.le_trans (stars_mono (longer (first ++ name)) _) (Nat.le_add_left _ _)
      rw [same, taken, Bool.true_or, if_pos rfl]
      omega
    · rw [same, stars_stretch back none, passed, Bool.false_or, if_neg Bool.false_ne_true]
      omega

/-- It brings no others of the kind about, if the kind does not reach back over what is put in. -/
theorem le_stars_exchange (shorter : ∀ first rest, behind (first ++ name ++ rest) = true → behind rest = true)
    (text : Text) :
    stars front.isSuffixOf text + stars behind (replaceAll (front ++ ['*']) name text) ≤
      stars (fun before => front.isSuffixOf before || behind before) text := by
  have own := looksBack_isSuffixOf starless
  have both : LooksBack fun before => front.isSuffixOf before || behind before := fun first rest => by
    simp only [own first rest, back first rest]
  induction text using stretch_induction with
  | last stretch none =>
    rw [exchange_of_starless none, stars_of_notMem none, stars_of_notMem none]
    exact Nat.zero_le _
  | star stretch rest none ih =>
    rw [stars_stretch both none, stars_stretch own none]
    rcases exchange_cases starless none name rest with ⟨first, short, taken, same⟩ | ⟨passed, same⟩
    · have free : '*' ∉ first ++ name := fun member => (List.mem_append.mp member).elim short plain
      have kept : stars behind (first ++ name ++ replaceAll (front ++ ['*']) name rest) ≤
          stars behind (replaceAll (front ++ ['*']) name rest) := by
        rw [stars_append, stars_of_notMem free, Nat.zero_add]
        exact stars_mono (shorter first) _
      rw [same, taken, Bool.true_or, if_pos rfl]
      omega
    · rw [same, stars_stretch back none, passed, Bool.false_or, if_neg Bool.false_ne_true]
      omega

end Exchange

end Text

namespace Reduction

open Text

variable (naming : StarNaming) {groups : List Text}

/-- Whether a star behind the text would end one of the groups. -/
def endsAny (groups : List Text) (before : Text) : Bool :=
  groups.any fun group => group.dropLast.isSuffixOf before

theorem endsAny_cons (group : Text) (groups : List Text) :
    endsAny (group :: groups) = fun before => group.dropLast.isSuffixOf before || endsAny groups before := rfl

theorem stars_endsAny_nil (text : Text) : stars (endsAny []) text = 0 := by
  simp [stars, starPlaces, endsAny]

theorem looksBack_endsAny (pieces : ∀ group ∈ groups, ∃ word, StarGroup.Piece group word) :
    LooksBack (endsAny groups) := by
  intro first rest
  rw [endsAny, endsAny, Bool.eq_iff_iff, List.any_eq_true, List.any_eq_true]
  refine exists_congr fun group => and_congr_right fun member => ?_
  obtain ⟨word, stands⟩ := pieces group member
  obtain ⟨front, rfl, starless, _⟩ := stands.exists_front
  rw [List.dropLast_concat, looksBack_isSuffixOf starless]

theorem endsAny_append {before : Text} (first : Text) (ends : endsAny groups before = true) :
    endsAny groups (first ++ before) = true := by
  obtain ⟨group, member, found⟩ := List.any_eq_true.mp ends
  refine List.any_eq_true.mpr ⟨group, member, ?_⟩
  rw [List.isSuffixOf_iff_suffix] at found ⊢
  exact found.trans (List.suffix_append first before)

theorem endsAny_of_foreign {name before : Text} (present : name ≠ []) (foreign : ∀ group ∈ groups, ∀ c ∈ name, c ∉ group)
    (first : Text) (ends : endsAny groups (first ++ name ++ before) = true) : endsAny groups before = true := by
  obtain ⟨group, member, found⟩ := List.any_eq_true.mp ends
  refine List.any_eq_true.mpr ⟨group, member, ?_⟩
  obtain ⟨letters, c, rfl⟩ := (List.eq_nil_or_concat' name).resolve_left present
  have absent : c ∉ group.dropLast := fun inside =>
    foreign group member c (by simp) (List.mem_of_mem_dropLast inside)
  rw [List.isSuffixOf_iff_suffix] at found ⊢
  rw [← List.append_assoc, List.append_assoc, List.singleton_append] at found
  exact suffix_of_suffix_append_cons absent found

theorem notMem_name_of_plain {supply : Supply} {c : Char} (plain : c.isUpper = false ∧ c.isDigit = false) :
    c ∉ supply.peek.name := by
  intro named
  rcases List.mem_cons.mp named with rfl | digit
  · exact absurd (Symbol.isUpper_letterAt supply.position) (ne_true_of_eq_false plain.1)
  · exact absurd (Symbol.isDigit_of_mem_roundSuffix digit) (ne_true_of_eq_false plain.2)

/-- The visits take the stars of all their groups. -/
theorem count_foldl_le (pieces : ∀ group ∈ groups, ∃ word, StarGroup.Piece group word) (reduction : Reduction) :
    (groups.foldl (visitStar naming) reduction).expression.count '*' + stars (endsAny groups) reduction.expression ≤
      reduction.expression.count '*' := by
  induction groups generalizing reduction with
  | nil => exact Nat.le_of_eq (congrArg _ (stars_endsAny_nil _))
  | cons group groups ih =>
    obtain ⟨⟨word, stands⟩, others⟩ := List.forall_mem_cons.mp pieces
    obtain ⟨front, rfl, starless, _⟩ := stands.exists_front
    have taken := count_exchange starless (reduction.supply.peek.isWordly_name.notMem isWord_star) reduction.expression
    have left := stars_exchange_le reduction.supply.peek.name starless (looksBack_endsAny others)
      (fun _ _ => endsAny_append _) reduction.expression
    have later := ih others (reduction.visitStar naming (front ++ ['*']))
    rw [expression_visitStar] at later
    rw [List.foldl_cons, endsAny_cons, List.dropLast_concat]
    refine Nat.le_trans (Nat.add_le_add_left left _) ?_
    omega

/-- Groups without the characters of names keep all other stars. -/
theorem le_count_foldl (pieces : ∀ group ∈ groups, ∃ word, StarGroup.Piece group word)
    (plain : ∀ group ∈ groups, ∀ c ∈ group, c.isUpper = false ∧ c.isDigit = false) (reduction : Reduction) :
    reduction.expression.count '*' ≤
      (groups.foldl (visitStar naming) reduction).expression.count '*' + stars (endsAny groups) reduction.expression := by
  induction groups generalizing reduction with
  | nil => exact Nat.le_add_right _ _
  | cons group groups ih =>
    obtain ⟨⟨word, stands⟩, others⟩ := List.forall_mem_cons.mp pieces
    obtain ⟨front, rfl, starless, _⟩ := stands.exists_front
    have plainOthers := (List.forall_mem_cons.mp plain).2
    have foreign : ∀ group ∈ groups, ∀ c ∈ reduction.supply.peek.name, c ∉ group := fun other member c named inside =>
      notMem_name_of_plain (plainOthers other member c inside) named
    have unnamed := reduction.supply.peek.isWordly_name.notMem isWord_star
    have taken := count_exchange starless unnamed reduction.expression
    have left := le_stars_exchange starless unnamed (looksBack_endsAny others)
      (fun _ _ => endsAny_of_foreign reduction.supply.peek.name_ne_nil foreign _) reduction.expression
    have later := ih others plainOthers (reduction.visitStar naming (front ++ ['*']))
    rw [expression_visitStar] at later
    rw [List.foldl_cons, endsAny_cons, List.dropLast_concat]
    refine Nat.le_trans ?_ (Nat.add_le_add_left left _)
    omega

end Reduction

namespace StarGroup

open Text

/-- A star ends one of the groups found if it stands behind a word, with or without a parenthesis. -/
theorem stars_endsAny_found (text : Text) :
    stars (Reduction.endsAny (findAll text).eraseDups) text = (starPlaces takesStar text).length := by
  apply congrArg List.length
  apply starPlaces_congr
  intro before rest split
  rw [Bool.eq_iff_iff]
  constructor
  · intro ends
    obtain ⟨group, member, found⟩ := List.any_eq_true.mp ends
    obtain ⟨word, stands⟩ := exists_piece_of_mem_findAll (List.mem_eraseDups.mp member)
    obtain ⟨front, rfl, _, takes⟩ := stands.exists_front
    rw [List.dropLast_concat, List.isSuffixOf_iff_suffix] at found
    obtain ⟨first, rfl⟩ := found
    exact takes first
  · intro takes
    have place : before.length + 1 ∈ (findSpans recognise text).map Span.stop := by
      rw [stops_findSpans]
      refine List.mem_map_of_mem (List.mem_filter.mpr ⟨List.mem_range.mpr ?_, ?_⟩)
      · rw [split]
        simp
      · simp [split, takes]
    obtain ⟨span, inside, stops⟩ := List.mem_map.mp place
    have found : text.slice span.start span.stop ∈ findAll text := by
      rw [findAll, ← slice_findSpans recognise_front]
      exact List.mem_map_of_mem inside
    obtain ⟨word, stands⟩ := exists_piece_of_mem_findAll found
    obtain ⟨front, same, _, _⟩ := stands.exists_front
    refine List.any_eq_true.mpr ⟨_, List.mem_eraseDups.mpr found, ?_⟩
    rw [same, List.dropLast_concat, List.isSuffixOf_iff_suffix]
    have cut : text.take (before.length + 1) = before ++ ['*'] := by
      rw [split, List.take_length_add_append]
      rfl
    rw [slice, stops, cut] at same
    obtain ⟨first, whole⟩ := same ▸ List.drop_suffix span.start (before ++ ['*'])
    rw [← List.append_assoc] at whole
    exact ⟨first, List.append_cancel_right whole⟩

end StarGroup

open Text StarGroup

/-- The star phase finds one group for each star directly behind a word character or behind a parenthesis that
closes directly behind one, and the group ends with the star. It takes at least as many stars as it
finds groups, and no more of them if no character of a name stands in the expression. -/
theorem stars_of_reduceStars (naming : StarNaming) (expression : Text) (supply : Supply) :
    let spans := findSpans Shape.star.take? expression
    let found := starPlaces takesStar expression
    let left := (reduceStars naming expression supply).expression.count '*'
    spans.map (fun span => expression.slice span.start span.stop) = findAll expression ∧
      spans.map Span.stop = found.map (· + 1) ∧
      left + found.length ≤ expression.count '*' ∧
      ((∀ c ∈ expression, c.isUpper = false ∧ c.isDigit = false) → left + found.length = expression.count '*') := by
  intro spans found left
  have searched : spans = findSpans recognise expression := congrArg (findSpans · expression) (funext take?_star)
  have pieces : ∀ group ∈ (findAll expression).eraseDups, ∃ word, Piece group word := fun group member =>
    exists_piece_of_mem_findAll (List.mem_eraseDups.mp member)
  have same : (reduceStars naming expression supply).expression =
      ((findAll expression).eraseDups.foldl (Reduction.visitStar naming) ⟨expression, supply, []⟩).expression := by
    cases naming <;> rfl
  have most := Reduction.count_foldl_le naming pieces ⟨expression, supply, []⟩
  rw [stars_endsAny_found, ← same] at most
  rw [searched]
  refine ⟨slice_findSpans recognise_front expression, stops_findSpans expression, most, fun plain => ?_⟩
  have plainGroups : ∀ group ∈ (findAll expression).eraseDups, ∀ c ∈ group, c.isUpper = false ∧ c.isDigit = false :=
    fun group member c inside => plain c ((infix_of_mem_findAll (List.mem_eraseDups.mp member)).subset inside)
  have least := Reduction.le_count_foldl naming pieces plainGroups ⟨expression, supply, []⟩
  rw [stars_endsAny_found, ← same] at least
  exact Nat.le_antisymm most least

/-- Two groups, the first of them inside the second, and a star behind a star. -/
theorem stars_of_reduceStars_overlapping :
    (∀ c ∈ "b)*(ab)**".toList, c.isUpper = false ∧ c.isDigit = false) ∧
      starPlaces takesStar "b)*(ab)**".toList = [2, 7] ∧
      (reduceStars .separate "b)*(ab)**".toList {}).expression.count '*' +
        (starPlaces takesStar "b)*(ab)**".toList).length = "b)*(ab)**".toList.count '*' := by
  have checked : "b)*(ab)**".toList.all (fun c => !c.isUpper && !c.isDigit) = true := by decide
  have plain : ∀ c ∈ "b)*(ab)**".toList, c.isUpper = false ∧ c.isDigit = false := fun c member => by
    simpa using List.all_eq_true.mp checked c member
  obtain ⟨_, _, _, taken⟩ := stars_of_reduceStars .separate "b)*(ab)**".toList {}
  exact ⟨plain, by decide, taken plain⟩

end SumStar
