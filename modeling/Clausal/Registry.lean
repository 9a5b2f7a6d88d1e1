import Clausal.Formula
import Clausal.Text.Capital

/-!
# Registries

A registry holds the symbols in use and the axioms, each in the order in which it came. Constants,
variables and predicates are looked up by name; constants also by the capitalized name.
-/

namespace Clausal

/-- A Skolem function symbol. -/
structure SkolemSymbol where
  name : String
  arity : Nat
deriving DecidableEq

/-- Symbols, axioms and the first number not yet tried for a fresh name. -/
structure Registry where
  consts : List Constant := []
  vars : List Variable := []
  preds : List Predicate := []
  skolemSymbols : List SkolemSymbol := []
  axioms : List Formula := []
  counter : Nat := 0

namespace Registry

/-- The registry without symbols and axioms. -/
def empty : Registry := {}

/-- The constant stored under exactly this name. -/
def storedConstant? (r : Registry) (name : String) : Option Constant :=
  r.consts.find? (·.name == name)

/-- The constant of that name, or else of the capitalized name. -/
def constantNamed? (r : Registry) (name : String) : Option Constant :=
  r.storedConstant? name <|> r.storedConstant? (Text.capitalize name)

/-- The variable of that name. -/
def variableNamed? (r : Registry) (name : String) : Option Variable :=
  r.vars.find? (·.name == name)

/-- The predicate of that name. -/
def predicateNamed? (r : Registry) (name : String) : Option Predicate :=
  r.preds.find? (·.name == name)

/-- The arity of the Skolem function of that name. -/
def skolemArity? (r : Registry) (name : String) : Option Nat :=
  (r.skolemSymbols.find? (·.name == name)).map (·.arity)

/-- The names that terms print: those of constants, variables and Skolem functions. -/
def termNames (r : Registry) : List String :=
  r.consts.map (·.name) ++ r.vars.map (·.name) ++ r.skolemSymbols.map (·.name)

/-- Adds a constant after the others. -/
def addConstant (r : Registry) (c : Constant) : Registry :=
  { r with consts := r.consts ++ [c] }

/-- Adds a variable after the others. -/
def addVariable (r : Registry) (v : Variable) : Registry :=
  { r with vars := r.vars ++ [v] }

/-- Adds a predicate after the others. -/
def addPredicate (r : Registry) (p : Predicate) : Registry :=
  { r with preds := r.preds ++ [p] }

/-- Adds a Skolem function after the others. -/
def addSkolemSymbol (r : Registry) (s : SkolemSymbol) : Registry :=
  { r with skolemSymbols := r.skolemSymbols ++ [s] }

/-- Adds an axiom after the others. -/
def addAxiom (r : Registry) (f : Formula) : Registry :=
  { r with axioms := r.axioms ++ [f] }

end Registry

end Clausal
