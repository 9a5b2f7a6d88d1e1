import Clausal.Formula

/-!
# The text of formulas

The canonical text puts brackets around every compound operand, except that chains of one of
`∧` and `∨` group to the left without them. Two formulas count as equal when their texts are.
-/

namespace Clausal

/-- A predicate with its arity, as in `Friends/2`. -/
def Predicate.render (p : Predicate) : String := p.name ++ "/" ++ p.arity.repr

/-- The text of an atom, as in `Friends(A, x)`. -/
def Atom.render (a : Atom) : String :=
  a.predicate.name ++ "(" ++ ", ".intercalate (a.terms.map Term.render) ++ ")"

/-- The sign of a connective. -/
def Connective.sign : Connective → String
  | and => "∧"
  | or => "∨"
  | implies => "⇒"
  | iff => "⇔"

/-- Chains of these connectives need no brackets on the left. -/
def Connective.isChained : Connective → Bool
  | and | or => true
  | implies | iff => false

/-- The sign of a quantifier. -/
def Quantifier.sign : Quantifier → String
  | all => "∀"
  | ex => "∃"

namespace Formula

/-- Atoms and negations are operands without brackets. -/
def isBare : Formula → Bool
  | atom _ | not _ => true
  | binary .. | quant .. => false

/-- Holds of the formulas that continue a chain of `c` to the left. -/
def continues (c : Connective) : Formula → Bool
  | binary d _ _ => c.isChained && c == d
  | _ => false

/-- Puts brackets around a text that does not stand alone. -/
def bracket (bare : Bool) (text : String) : String :=
  if bare then text else "(" ++ text ++ ")"

/-- The canonical text. -/
def render : Formula → String
  | atom a => a.render
  | not f => "¬" ++ bracket f.isBare f.render
  | binary c f g =>
    bracket (f.isBare || f.continues c) f.render ++ " " ++ c.sign ++ " " ++
      bracket g.isBare g.render
  | quant q vs f => q.sign ++ " " ++ ",".intercalate (vs.map (·.name)) ++ ": " ++ f.render

/-- Formulas are equal when they have one canonical text. -/
def same (f g : Formula) : Bool := f.render == g.render

end Formula

end Clausal
