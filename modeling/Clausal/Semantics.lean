import Mathlib.Logic.Function.Basic
import Clausal.Clause

/-!
# Truth of formulas

A structure gives values to constants by name, and meanings to predicates and Skolem functions by
name and arity. An open variable ranges over the whole universe, a closed-world variable over the
values of the constants in its domain.
-/

namespace Clausal

universe u

/-- A structure over the universe `U`, which is not empty as constants have values. -/
structure Interpretation (U : Type u) where
  const : String → U
  func : String → List U → U
  pred : Predicate → List U → Prop

variable {U : Type u}

/-- Values of variables by name. -/
abbrev Assignment (U : Type u) := String → U

/-- The truth of two joined formulas. -/
def Connective.Combines : Connective → Prop → Prop → Prop
  | and, p, q => p ∧ q
  | or, p, q => p ∨ q
  | implies, p, q => p → q
  | iff, p, q => (p ↔ q)

/-- Truth for all values, or for some value, of those that satisfy `range`. -/
def Quantifier.Ranges (range : U → Prop) (p : U → Prop) : Quantifier → Prop
  | all => ∀ a, range a → p a
  | ex => ∃ a, range a ∧ p a

namespace Interpretation

variable (M : Interpretation U)

mutual

/-- The value of a term. -/
def value (s : Assignment U) : Term → U
  | .const c => M.const c.name
  | .var v => s v.name
  | .skolem name args => M.func name (values s args)

/-- The values of several terms. -/
def values (s : Assignment U) : List Term → List U
  | [] => []
  | t :: ts => value s t :: values s ts

end

/-- The values that a variable ranges over. -/
def InRange (v : Variable) (a : U) : Prop :=
  match v.domain with
  | none => True
  | some cs => ∃ c ∈ cs, M.const c.name = a

/-- Truth of an atom. -/
def HoldsAtom (s : Assignment U) (a : Atom) : Prop := M.pred a.predicate (M.values s a.terms)

/-- Truth of a statement quantified over several variables, the first one outermost. -/
def HoldsFor (q : Quantifier) (p : Assignment U → Prop) : List Variable → Assignment U → Prop
  | [], s => p s
  | v :: vs, s => q.Ranges (M.InRange v) fun a => HoldsFor q p vs (Function.update s v.name a)

/-- Truth of a formula under an assignment. -/
def Holds (s : Assignment U) : Formula → Prop
  | .atom a => M.HoldsAtom s a
  | .not f => ¬ Holds s f
  | .binary c f g => c.Combines (Holds s f) (Holds s g)
  | .quant q vs f => M.HoldsFor q (fun s => Holds s f) vs s

/-- Truth of a literal. -/
def HoldsLiteral (s : Assignment U) (l : Literal) : Prop :=
  if l.polarity then M.HoldsAtom s l.atom else ¬ M.HoldsAtom s l.atom

/-- A clause is true when one of its literals is. -/
def HoldsClause (s : Assignment U) (c : Clause) : Prop := ∃ l ∈ c.literals, M.HoldsLiteral s l

@[simp] theorem values_eq_map (s : Assignment U) (ts : List Term) :
    M.values s ts = ts.map (M.value s) := by
  induction ts with
  | nil => rfl
  | cons t ts ih => simp [values, ih]

end Interpretation

end Clausal
