import Clausal.Registry.Action
import Clausal.Text.Blank

/-!
# Definitions and axioms

What users put into a registry. Names are words, and each kind of symbol has a namespace of its
own in which no name is given twice.
-/

namespace Clausal

/-- Refuses a name that is not a word. -/
def checkName (kind : SymbolKind) (name : String) : Except Error Unit :=
  if Text.isWord name then .ok () else .error (.invalidName kind name)

/-- Refuses a name that is in use. -/
def checkUnused (kind : SymbolKind) (name : String) (inUse : Bool) : Except Error Unit :=
  if inUse then .error (.duplicateName kind name) else .ok ()

/-- The domain of a new variable: not empty, and each constant once. -/
def checkDomain (name : String) : Option (List Constant) → Except Error (Option (List Constant))
  | none => .ok none
  | some [] => .error (.emptyDomain name)
  | some cs => .ok (some cs.eraseDups)

/-- Defines the constant with the capitalized name. -/
def defineConstant (given : String) : Attempt Constant := do
  checkName .const given
  let name := Text.capitalize given
  let r ← get
  checkUnused .const name (r.storedConstant? name).isSome
  let c := Constant.mk name
  note (.definedConstant c)
  set (r.addConstant c)
  return c

/-- Defines a variable, closed-world when it is given a domain. -/
def defineVariable (name : String) (domain : Option (List Constant)) : Attempt Variable := do
  checkName .var name
  let r ← get
  checkUnused .var name (r.variableNamed? name).isSome
  let domain ← checkDomain name domain
  let v : Variable := { name, domain }
  note (.definedVariable v)
  set (r.addVariable v)
  return v

/-- Defines a predicate of at least one argument. -/
def definePredicate (name : String) (arity : Nat) : Attempt Predicate := do
  checkName .pred name
  let r ← get
  checkUnused .pred name (r.predicateNamed? name).isSome
  if arity = 0 then
    throw (.invalidArity name arity)
  let p := Predicate.mk name arity
  note (.definedPredicate p)
  set (r.addPredicate p)
  return p

/-- What can be put forward as an axiom. -/
inductive Statement where
  | formula (f : Formula)
  | term (t : Term)

/-- Adds an axiom; a bare term is not one. -/
def assertStatement : Statement → Attempt Unit
  | .formula f => do
    let r ← get
    note (.asserted r.axioms.length f)
    set (r.addAxiom f)
  | .term t => throw (.notAFormula t.render)

end Clausal
