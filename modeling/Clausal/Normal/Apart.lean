import Clausal.Formula.Free
import Clausal.Registry.Fresh

/-!
# Variables standardized apart

Afterwards no two quantifiers bind one name and none binds a name that is free. A binder keeps its
variables unless their names were seen before: free in the formula or bound further left. Free
variables keep their names.
-/

namespace Clausal

/-- Which variable stands for a bound name, innermost binder first. -/
abbrev Scope := List (String × Variable)

/-- The variable that an occurrence of `v` becomes. -/
def Scope.resolve (scope : Scope) (v : Variable) : Variable := (scope.lookup v.name).getD v

/-- The scope inside a quantifier whose variables `vs` became `ws`. -/
def Scope.enter (scope : Scope) (vs ws : List Variable) : Scope :=
  ((vs.map (·.name)).zip ws).reverse ++ scope

/-- An action that keeps track of the names seen so far. -/
abbrev Naming := StateT (List String) Action

/-- The variable to bind in place of `v`: a fresh copy when the name was seen before. -/
def bindApart (v : Variable) : Naming Variable := do
  let seen ← get
  let w ← if seen.contains v.name then liftM (freshVariable v) else pure v
  modify (w.name :: ·)
  return w

namespace Formula

/-- Binds each name once, from left to right. -/
def renameApart (scope : Scope) : Formula → Naming Formula
  | atom a => return atom (a.mapTerms (Term.bind fun v => .var (scope.resolve v)))
  | not f => return not (← f.renameApart scope)
  | binary c f g => return binary c (← f.renameApart scope) (← g.renameApart scope)
  | quant q vs f => do
    let ws ← vs.mapM bindApart
    return quant q ws (← f.renameApart (scope.enter vs ws))

/-- The formula with its variables standardized apart. -/
def standardizeApart (f : Formula) : Action Formula :=
  (f.renameApart []).run' (f.freeVariables.map (·.name))

end Formula

end Clausal
