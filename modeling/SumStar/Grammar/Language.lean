import SumStar.Grammar.Basic

/-! The language of a grammar. A step exchanges one occurrence of a head's name in a text for one
of its bodies; the texts that the start body leads to and in which no declared name is left are
the generated ones. Names are found as pieces of text, so this reads a grammar as intended as long
as no name begins another one. -/

namespace SumStar.Grammar

/-- One exchange in a text by a production that the grammar has. -/
inductive Step (grammar : Grammar) : Text → Text → Prop where
  | exchange (before after : Text) {production : Production}
      (member : production ∈ grammar.productions) :
      Step grammar (before ++ production.head.name ++ after) (before ++ production.body ++ after)

/-- Any number of steps, one after the other. -/
inductive Derives (grammar : Grammar) : Text → Text → Prop where
  | refl (text : Text) : Derives grammar text text
  | step {first second third : Text} (taken : Step grammar first second)
      (rest : Derives grammar second third) : Derives grammar first third

def IsTerminal (grammar : Grammar) (text : Text) : Prop :=
  ∀ symbol ∈ grammar.nonTerminals, ¬ symbol.name <:+: text

def Generates (grammar : Grammar) (text : Text) : Prop :=
  Derives grammar grammar.startProduction.body text ∧ IsTerminal grammar text

theorem Derives.trans {grammar : Grammar} {first second third : Text}
    (derivation : Derives grammar first second) (further : Derives grammar second third) :
    Derives grammar first third := by
  induction derivation with
  | refl => exact further
  | step taken _ ih => exact .step taken (ih further)

theorem Derives.within {grammar : Grammar} {first second : Text}
    (derivation : Derives grammar first second) (before after : Text) :
    Derives grammar (before ++ first ++ after) (before ++ second ++ after) := by
  induction derivation with
  | refl => exact .refl _
  | step taken _ ih =>
    refine .step ?_ ih
    cases taken with
    | exchange inner outer member =>
      have inside := Step.exchange (before ++ inner) (outer ++ after) member
      simpa only [List.append_assoc] using inside

end SumStar.Grammar
