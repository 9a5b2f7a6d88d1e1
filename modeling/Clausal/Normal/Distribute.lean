import Clausal.Formula
import Clausal.Error

/-!
# Disjunctions distributed over conjunctions

From a negation normal form without quantifiers to conjunctive normal form.
-/

namespace Clausal.Formula

/-- The conjunctive normal form of `f ∨ g`, for an `f` that is no conjunction and a `g` in
conjunctive normal form. -/
def orClauses (f : Formula) : Formula → Formula
  | and g h => and (orClauses f g) (orClauses f h)
  | g => or f g

/-- The conjunctive normal form of `f ∨ g`, for an `f` and a `g` in conjunctive normal form. -/
def orCnf : Formula → Formula → Formula
  | and f g, h => and (orCnf f h) (orCnf g h)
  | f, h => orClauses f h

/-- Refuses a shape that distribution has no rule for. -/
def notDistributable (shape : Shape) : Except Error Formula :=
  .error (.unsupportedShape shape .distribution)

/-- The conjunctive normal form of a negation normal form without quantifiers. -/
def distribute : Formula → Except Error Formula
  | atom a => return atom a
  | not (atom a) => return not (atom a)
  | not _ => notDistributable .negatedCompound
  | and f g => return and (← f.distribute) (← g.distribute)
  | or f g => return orCnf (← f.distribute) (← g.distribute)
  | implies _ _ => notDistributable .implication
  | iff _ _ => notDistributable .equivalence
  | quant .. => notDistributable .quantifier

end Clausal.Formula
