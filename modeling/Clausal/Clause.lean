import Clausal.Formula.Render

/-!
# Clauses

A literal is an atom or its negation, a clause a list of literals read as their disjunction.
-/

namespace Clausal

/-- An atom, negated when the polarity is `false`. -/
structure Literal where
  polarity : Bool
  atom : Atom

/-- The disjunction of its literals. -/
structure Clause where
  literals : List Literal

namespace Literal

/-- The literal with the other polarity. -/
def complement (l : Literal) : Literal := { l with polarity := !l.polarity }

/-- The literal as a formula. -/
def toFormula (l : Literal) : Formula :=
  if l.polarity then .atom l.atom else .not (.atom l.atom)

/-- The text of a literal. -/
def render (l : Literal) : String := (if l.polarity then "" else "¬") ++ l.atom.render

/-- Literals are the same when their polarities are equal and their atoms the same. -/
def same (l m : Literal) : Bool := l.atom.same m.atom && l.polarity == m.polarity

end Literal

namespace Clause

/-- The empty clause is a contradiction. -/
def isEmpty (c : Clause) : Bool := c.literals.isEmpty

/-- A unit clause has one literal. -/
def isUnit (c : Clause) : Bool := c.literals.length == 1

/-- A ground clause holds no variable. -/
def isGround (c : Clause) : Bool := c.literals.all (·.atom.isGround)

/-- Some later literal of `ls` is the complement of `l`. -/
def hasComplement (l : Literal) (ls : List Literal) : Bool :=
  ls.any fun m => l.atom.same m.atom && l.polarity != m.polarity

/-- Two literals among `ls` are complements of each other. -/
def hasComplements : List Literal → Bool
  | [] => false
  | l :: ls => hasComplement l ls || hasComplements ls

/-- A tautology holds a literal and its complement. -/
def isTautology (c : Clause) : Bool := hasComplements c.literals

/-- The clause as a disjunction, `none` for the empty clause. -/
def toFormula? (c : Clause) : Option Formula :=
  Formula.disjunction (c.literals.map Literal.toFormula)

/-- The text of a clause; `⊥` stands for the empty clause. -/
def render (c : Clause) : String :=
  if c.isEmpty then "⊥" else " ∨ ".intercalate (c.literals.map Literal.render)

/-- Holds when the literals of two lists are the same one by one. -/
def sameLiterals : List Literal → List Literal → Bool
  | [], [] => true
  | l :: ls, m :: ms => l.same m && sameLiterals ls ms
  | _, _ => false

/-- Clauses are the same when their literals are, in order. -/
def same (c d : Clause) : Bool := sameLiterals c.literals d.literals

/-- Refuses a shape that is not part of a conjunctive normal form. -/
def notExtractable {α : Type} (shape : Shape) : Except Error α :=
  .error (.unsupportedShape shape .clauseExtraction)

/-- The literals of a disjunction from left to right. -/
def literalsOf : Formula → Except Error (List Literal)
  | .or f g => return (← literalsOf f) ++ (← literalsOf g)
  | .atom a => return [⟨true, a⟩]
  | .not (.atom a) => return [⟨false, a⟩]
  | .not _ => notExtractable .nonLiteralNegation
  | .and _ _ => notExtractable .conjunctionInClause
  | .implies _ _ => notExtractable .implication
  | .iff _ _ => notExtractable .equivalence
  | .quant .. => notExtractable .quantifier

/-- The clauses of a conjunctive normal form from left to right. -/
def ofCnf : Formula → Except Error (List Clause)
  | .and f g => return (← ofCnf f) ++ (← ofCnf g)
  | f => return [⟨← literalsOf f⟩]

end Clause

end Clausal
