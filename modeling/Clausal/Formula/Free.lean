import Clausal.Formula

/-!
# Free variables and substitution

Binding is by name. Substitution stops at a quantifier that binds the variable again, and
renames nothing: a variable of the substituted term can be captured further down.
-/

namespace Clausal.Formula

/-- The free occurrences of variables from left to right. -/
def freeOccurrences : Formula → List Variable
  | atom a => a.vars
  | not f => f.freeOccurrences
  | binary _ f g => f.freeOccurrences ++ g.freeOccurrences
  | quant _ vs f => f.freeOccurrences.filter fun v => !v.isAmong vs

/-- The free variables in order of first occurrence. -/
def freeVariables (f : Formula) : List Variable := Variable.distinct f.freeOccurrences

/-- A closed formula has no free variable. -/
def isClosed (f : Formula) : Bool := f.freeVariables.isEmpty

/-- Puts `s` in place of the free occurrences of `x`. -/
def subst (x : Variable) (s : Term) : Formula → Formula
  | atom a => atom (a.subst x s)
  | not f => not (f.subst x s)
  | binary c f g => binary c (f.subst x s) (g.subst x s)
  | quant q vs f => quant q vs (if x.isAmong vs then f else f.subst x s)

end Clausal.Formula
