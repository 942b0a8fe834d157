import SumStar.Proofs.HeadOrder
import SumStar.Proofs.StarGroups

/-! The star phase with one symbol for each group and with one for all. What stands in the expression has none
of the names in it, so no name that was put in becomes part of a later group. An exchange therefore
takes place where it would take place if one and the same name had always been put in, and the two
runs go on side by side, apart in nothing but these names. -/

namespace SumStar

namespace Text

variable {first symbol : Symbol} {symbols : List Symbol} {group name text : Text}

/-- The text with one name for all the symbols. Their names are meant to be single letters. -/
def identify (first : Symbol) (symbols : List Symbol) (text : Text) : Text :=
  text.flatMap fun c => if [c] ∈ symbols.map Symbol.name then first.name else [c]

theorem identify_append (first : Symbol) (symbols : List Symbol) (text rest : Text) :
    identify first symbols (text ++ rest) = identify first symbols text ++ identify first symbols rest :=
  List.flatMap_append

theorem identify_cons_of_mem {c : Char} (named : [c] ∈ symbols.map Symbol.name) (first : Symbol) (rest : Text) :
    identify first symbols (c :: rest) = first.name ++ identify first symbols rest := by
  rw [identify, List.flatMap_cons, if_pos named]
  rfl

theorem identify_cons_of_notMem {c : Char} (other : [c] ∉ symbols.map Symbol.name) (first : Symbol) (rest : Text) :
    identify first symbols (c :: rest) = c :: identify first symbols rest := by
  rw [identify, List.flatMap_cons, if_neg other]
  rfl

theorem identify_of_foreign (foreign : ∀ c ∈ text, [c] ∉ symbols.map Symbol.name) (first : Symbol) :
    identify first symbols text = text := by
  induction text with
  | nil => rfl
  | cons c text ih =>
    rw [identify_cons_of_notMem (foreign c (by simp)), ih fun d member => foreign d (by simp [member])]

theorem foreign_of_absent (absent : ∀ symbol ∈ symbols, ¬ symbol.name <:+: text) :
    ∀ c ∈ text, [c] ∉ symbols.map Symbol.name := by
  intro c inside named
  obtain ⟨symbol, member, written⟩ := List.mem_map.mp named
  exact absent symbol member (written ▸ (List.singleton_infix_iff c text).mpr inside)

theorem identify_name {c : Char} (single : symbol.name = [c]) (member : symbol ∈ symbols) (first : Symbol) :
    identify first symbols symbol.name = first.name := by
  have named : [c] ∈ symbols.map Symbol.name := List.mem_map.mpr ⟨symbol, member, single⟩
  rw [single, identify_cons_of_mem named]
  exact List.append_nil _

section Exchange

variable (foreign : ∀ c ∈ group, [c] ∉ symbols.map Symbol.name) (apart : ∀ c ∈ group, c ∉ first.name)
include foreign apart

theorem prefix_of_prefix_identify (front : group <+: identify first symbols text) : group <+: text := by
  induction text generalizing group with
  | nil => exact front
  | cons c text ih =>
    cases group with
    | nil => exact List.nil_prefix
    | cons d group =>
      by_cases named : [c] ∈ symbols.map Symbol.name
      · obtain ⟨letter, digits, same⟩ := List.exists_cons_of_ne_nil first.name_ne_nil
        rw [identify_cons_of_mem named, same] at front
        exact False.elim (apart d (by simp) (by simp [same, (List.cons_prefix_cons.mp front).1]))
      · rw [identify_cons_of_notMem named] at front
        obtain ⟨same, behind⟩ := List.cons_prefix_cons.mp front
        refine List.cons_prefix_cons.mpr ⟨same, ih ?_ ?_ behind⟩
        · exact fun e member => foreign e (by simp [member])
        · exact fun e member => apart e (by simp [member])

/-- A group without the names is found where it was, whichever of them stand around it. -/
theorem identify_replaceAll (present : group ≠ []) (renamed : identify first symbols name = first.name) (text : Text) :
    identify first symbols (replaceAll group name text) =
      replaceAll group first.name (identify first symbols text) := by
  induction text using replace_induction present with
  | nil => rfl
  | found rest ih =>
    rw [replaceAll_append_of_ne_nil present, identify_append, identify_append, renamed, ih,
      identify_of_foreign foreign, replaceAll_append_of_ne_nil present]
  | missed c rest absent ih =>
    rw [replaceAll_cons_of_absent absent]
    by_cases named : [c] ∈ symbols.map Symbol.name
    · obtain ⟨letter, tail, rfl⟩ := List.exists_cons_of_ne_nil present
      rw [identify_cons_of_mem named, identify_cons_of_mem named, ih,
        replaceAll_append_of_notMem (apart letter (by simp))]
    · have still : ¬ group <+: c :: identify first symbols rest := fun front =>
        absent (prefix_of_prefix_identify foreign apart (identify_cons_of_notMem named first rest ▸ front))
      rw [identify_cons_of_notMem named, identify_cons_of_notMem named, ih, replaceAll_cons_of_absent still]

end Exchange
end Text

open Text

/-- The production with one symbol for all the symbols. -/
def Production.identify (first : Symbol) (symbols : List Symbol) (production : Production) : Production where
  head := if production.head ∈ symbols then first else production.head
  body := Text.identify first symbols production.body

namespace Reduction

variable {first : Symbol} {symbols : List Symbol} {separate shared : Reduction} {group word : Text}
  {groups : List Text}

/-- The symbols that head the productions, in the order in which they were handed out. -/
def heads (reduction : Reduction) : List Symbol :=
  (reduction.productions.map Production.head).eraseDups

/-- A run with symbols of their own, and one that differs from it in having the first of them in place of all. -/
structure Identified (first : Symbol) (symbols : List Symbol) (separate shared : Reduction) : Prop where
  expression : shared.expression = identify first symbols separate.expression
  productions : shared.productions = separate.productions.map (Production.identify first symbols)
  still : shared.supply.peek = first

theorem map_identify_repetition {symbol : Symbol} (member : symbol ∈ symbols)
    (renamed : identify first symbols symbol.name = first.name) (kept : identify first symbols word = word) :
    (repetition symbol word).map (Production.identify first symbols) = repetition first word := by
  have body : identify first symbols (word ++ symbol.name) = word ++ first.name := by
    rw [identify_append, kept, renamed]
  rw [repetition, repetition, List.map_cons, List.map_singleton, Production.identify, Production.identify,
    if_pos member, body]
  rfl

section Runs

variable (member : first ∈ symbols) (single : ∀ symbol ∈ symbols, ∃ c, symbol.name = [c])
include member single

theorem Identified.visitStar (identified : Identified first symbols separate shared)
    (next : separate.supply.peek ∈ symbols) (stands : StarGroup.Piece group word)
    (foreign : ∀ c ∈ group, [c] ∉ symbols.map Symbol.name) :
    Identified first symbols (separate.visitStar .separate group) (shared.visitStar .shared group) := by
  obtain ⟨letter, named⟩ := single _ next
  have renamed := identify_name named next first
  have apart : ∀ c ∈ group, c ∉ first.name := by
    intro c inside own
    obtain ⟨d, written⟩ := single first member
    rw [written, List.mem_singleton] at own
    exact foreign c inside (List.mem_map.mpr ⟨first, member, own ▸ written⟩)
  refine ⟨?_, ?_, identified.still⟩
  · rw [expression_visitStar, expression_visitStar, identified.still, identified.expression,
      identify_replaceAll foreign apart stands.ne_nil renamed]
  · have kept : identify first symbols word = word :=
      identify_of_foreign (fun c own => foreign c (stands.word_subset own)) first
    rw [productions_visitStar, productions_visitStar, identified.still, identified.productions, stands.body_eq,
      List.map_append, map_identify_repetition next renamed kept]

theorem Identified.foldl (identified : Identified first symbols separate shared)
    (next : ∀ position, separate.supply.position ≤ position → position < separate.supply.position + groups.length →
      .nth position ∈ symbols)
    (found : ∀ group ∈ groups, ∃ word, StarGroup.Piece group word)
    (foreign : ∀ group ∈ groups, ∀ c ∈ group, [c] ∉ symbols.map Symbol.name) :
    Identified first symbols (groups.foldl (Reduction.visitStar .separate) separate)
      (groups.foldl (Reduction.visitStar .shared) shared) := by
  induction groups generalizing separate shared with
  | nil => exact identified
  | cons group groups ih =>
    obtain ⟨⟨word, stands⟩, others⟩ := List.forall_mem_cons.mp found
    obtain ⟨here, later⟩ := List.forall_mem_cons.mp foreign
    have own : separate.supply.peek ∈ symbols := next _ (Nat.le_refl _) (by simp)
    refine ih (identified.visitStar member single own stands here) (fun position above below => ?_) others later
    rw [position_visitStar] at above below
    exact next position (by omega) (by rw [List.length_cons]; omega)

end Runs

theorem map_head_foldl (groups : List Text) (reduction : Reduction) :
    (groups.foldl (visitStar .separate) reduction).productions.map Production.head =
      reduction.productions.map Production.head ++
        (List.range' reduction.supply.position groups.length).flatMap fun position => [.nth position, .nth position] := by
  induction groups generalizing reduction with
  | nil => simp
  | cons group groups ih =>
    have own : (reduction.visitStar .separate group).productions.map Production.head =
        reduction.productions.map Production.head ++ [.nth reduction.supply.position, .nth reduction.supply.position] :=
      List.map_append
    rw [List.foldl_cons, ih, position_visitStar, own, List.length_cons, List.range'_succ, List.flatMap_cons,
      List.append_assoc]

theorem heads_reduceStars (expression : Text) (supply : Supply) :
    (reduceStars .separate expression supply).heads =
      (List.range' supply.position (StarGroup.findAll expression).eraseDups.length).map .nth := by
  have heads := map_head_foldl (StarGroup.findAll expression).eraseDups ⟨expression, supply, []⟩
  have distinct : ((List.range' supply.position (StarGroup.findAll expression).eraseDups.length).map Symbol.nth).Nodup :=
    (List.nodup_range' 1).map fun _ _ same => Symbol.nth.inj same
  rw [Reduction.heads, reduceStars, heads, ← eraseDups_doubled distinct, List.flatMap_map]
  rfl

end Reduction

/-- If the names given to the groups one by one are single letters and do not stand in the expression, the run with
a shared symbol gives what the first of the names in place of all of them gives. -/
theorem identified_reduceStars {first : Symbol} {others : List Symbol} (expression : Text) (supply : Supply)
    (handed : (reduceStars .separate expression supply).heads = first :: others)
    (few : supply.position + (first :: others).length ≤ 25)
    (absent : ∀ symbol ∈ first :: others, ¬ symbol.name <:+: expression) :
    let symbols := first :: others
    let separate := reduceStars .separate expression supply
    let shared := reduceStars .shared expression supply
    symbols = (List.range' supply.position symbols.length).map .nth ∧
      shared.expression = Text.identify first symbols separate.expression ∧
      shared.productions = separate.productions.map (Production.identify first symbols) ∧
      separate.supply.position = supply.position + symbols.length ∧
      shared.supply.position = supply.position + 1 := by
  intro symbols separate shared
  have heads : symbols = (List.range' supply.position (StarGroup.findAll expression).eraseDups.length).map .nth :=
    handed.symm.trans (Reduction.heads_reduceStars expression supply)
  have count : symbols.length = (StarGroup.findAll expression).eraseDups.length := by simp [heads]
  have positions : symbols = (List.range' supply.position symbols.length).map .nth := by rw [count, ← heads]
  have numbered : ∀ position, .nth position ∈ symbols ↔
      supply.position ≤ position ∧ position < supply.position + symbols.length := by
    intro position
    rw [positions]
    simp [List.mem_range'_1]
  have single : ∀ symbol ∈ symbols, ∃ c, symbol.name = [c] := by
    intro symbol member
    rw [positions] at member
    obtain ⟨position, inside, rfl⟩ := List.mem_map.mp member
    have bounds := List.mem_range'_1.mp inside
    exact ⟨_, Symbol.nameAt_of_lt (Nat.lt_of_lt_of_le bounds.2 few)⟩
  have plain := foreign_of_absent absent
  have foreign : ∀ group ∈ (StarGroup.findAll expression).eraseDups, ∀ c ∈ group, [c] ∉ symbols.map Symbol.name :=
    fun group found c inside => plain c ((StarGroup.infix_of_mem_findAll (List.mem_eraseDups.mp found)).subset inside)
  have front : supply.peek = first := by
    have one := positions
    rw [List.length_cons, List.range'_succ, List.map_cons] at one
    exact (List.cons.inj one).1.symm
  have start : Reduction.Identified first symbols ⟨expression, supply, []⟩ ⟨expression, supply, []⟩ :=
    ⟨(identify_of_foreign plain first).symm, rfl, front⟩
  have run := start.foldl List.mem_cons_self single
    (fun position above below => (numbered position).mpr ⟨above, count ▸ below⟩)
    (fun group found => StarGroup.exists_piece_of_mem_findAll (List.mem_eraseDups.mp found)) foreign
  refine ⟨positions, run.expression, run.productions, ?_, ?_⟩
  · rw [Reduction.position_reduceStars, count]
  · exact congrArg Supply.position (head_reduceStars_shared expression supply).1

/-- Three groups, one of them inside another. -/
theorem identified_reduceStars_nested :
    let symbols : List Symbol := [.nth 3, .nth 4, .nth 5]
    (reduceStars .separate "b*+(ab)*c*".toList ⟨3⟩).heads = symbols ∧ 3 + symbols.length ≤ 25 ∧
      (∀ symbol ∈ symbols, ¬ symbol.name <:+: "b*+(ab)*c*".toList) ∧
      (reduceStars .shared "b*+(ab)*c*".toList ⟨3⟩).expression =
        Text.identify (.nth 3) symbols (reduceStars .separate "b*+(ab)*c*".toList ⟨3⟩).expression := by
  intro symbols
  have handed : (reduceStars .separate "b*+(ab)*c*".toList ⟨3⟩).heads = symbols := by decide +kernel
  have absent : ∀ symbol ∈ symbols, ¬ symbol.name <:+: "b*+(ab)*c*".toList := by decide +kernel
  obtain ⟨_, expression, _⟩ := identified_reduceStars "b*+(ab)*c*".toList ⟨3⟩ handed (by decide) absent
  exact ⟨handed, by decide, absent, expression⟩

end SumStar
