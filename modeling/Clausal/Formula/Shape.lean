import Clausal.Formula

/-!
# Normal forms as shapes

Tests for literals, negation normal form and conjunctive normal form.
-/

namespace Clausal.Formula

/-- An atom or the negation of an atom. -/
def isLiteral : Formula → Bool
  | atom _ | not (atom _) => true
  | _ => false

/-- A quantifier stands at the top. -/
def isQuantifier : Formula → Bool
  | quant .. => true
  | _ => false

/-- A quantifier stands somewhere. -/
def containsQuantifier : Formula → Bool
  | atom _ => false
  | not f => f.containsQuantifier
  | binary _ f g => f.containsQuantifier || g.containsQuantifier
  | quant .. => true

/-- Negation normal form: negation on atoms only, no implication and no equivalence. -/
def isNnf : Formula → Bool
  | atom _ | not (atom _) => true
  | and f g | or f g => f.isNnf && g.isNnf
  | quant _ _ f => f.isNnf
  | _ => false

/-- A disjunction of literals. -/
def isClause : Formula → Bool
  | or f g => f.isClause && g.isClause
  | f => f.isLiteral

/-- Conjunctive normal form: a conjunction of disjunctions of literals. -/
def isCnf : Formula → Bool
  | and f g => f.isCnf && g.isCnf
  | f => f.isClause

end Clausal.Formula
