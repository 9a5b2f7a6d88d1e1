import Clausal.Term
import Clausal.Error

/-!
# Formulas

First-order formulas over predicates applied to terms. Quantifiers bind lists of variables;
`Formula.forAll` and `Formula.forSome` refuse an empty list, the constructors do not.
-/

namespace Clausal

/-- A predicate symbol; names and arities together tell predicates apart. -/
structure Predicate where
  name : String
  arity : Nat
deriving DecidableEq

/-- A predicate and the terms it is applied to. -/
structure Atom where
  predicate : Predicate
  terms : List Term

/-- The binary connectives. -/
inductive Connective where
  | and
  | or
  | implies
  | iff
deriving DecidableEq

/-- The quantifiers. -/
inductive Quantifier where
  | all
  | ex
deriving DecidableEq

/-- A first-order formula. -/
inductive Formula where
  | atom (a : Atom)
  | not (f : Formula)
  | binary (c : Connective) (f g : Formula)
  | quant (q : Quantifier) (vs : List Variable) (f : Formula)

namespace Atom

/-- The variables of an atom from left to right, with repetitions. -/
def vars (a : Atom) : List Variable := a.terms.flatMap Term.vars

/-- A ground atom holds no variable. -/
def isGround (a : Atom) : Bool := a.vars.isEmpty

/-- Applies `h` to each of the terms. -/
def mapTerms (h : Term → Term) (a : Atom) : Atom := { a with terms := a.terms.map h }

/-- Puts `s` in place of the variable `x`. -/
def subst (x : Variable) (s : Term) : Atom → Atom := mapTerms (Term.subst x s)

/-- Atoms are the same when they apply one predicate to the same terms. -/
def same (a b : Atom) : Bool := a.predicate == b.predicate && Term.sameAll a.terms b.terms

end Atom

/-- The atom of a predicate and as many terms as its arity asks for. -/
def Predicate.apply (p : Predicate) (terms : List Term) : Except Error Formula :=
  if terms.length = p.arity then .ok (.atom ⟨p, terms⟩)
  else .error (.arityMismatch p.name p.arity terms.length)

/-- The quantifier that negation turns into. -/
def Quantifier.dual : Quantifier → Quantifier
  | all => ex
  | ex => all

namespace Formula

/-- The conjunction of two formulas. -/
@[match_pattern] abbrev and (f g : Formula) : Formula := binary .and f g

/-- The disjunction of two formulas. -/
@[match_pattern] abbrev or (f g : Formula) : Formula := binary .or f g

/-- The implication from `f` to `g`. -/
@[match_pattern] abbrev implies (f g : Formula) : Formula := binary .implies f g

/-- The equivalence of two formulas. -/
@[match_pattern] abbrev iff (f g : Formula) : Formula := binary .iff f g

/-- `f` for all values of `vs`. -/
@[match_pattern] abbrev all (vs : List Variable) (f : Formula) : Formula := quant .all vs f

/-- `f` for some values of `vs`. -/
@[match_pattern] abbrev ex (vs : List Variable) (f : Formula) : Formula := quant .ex vs f

/-- Quantifies over at least one variable. -/
def quantify (q : Quantifier) (vs : List Variable) (f : Formula) : Except Error Formula :=
  if vs.isEmpty then .error .emptyBinding else .ok (quant q vs f)

/-- Universal quantification over at least one variable. -/
def forAll : List Variable → Formula → Except Error Formula := quantify .all

/-- Existential quantification over at least one variable. -/
def forSome : List Variable → Formula → Except Error Formula := quantify .ex

/-- Joins formulas to the left, `none` when there are none. -/
def join (c : Connective) : List Formula → Option Formula
  | [] => none
  | f :: fs => some (fs.foldl (binary c) f)

/-- The conjunction of formulas, grouped to the left. -/
def conjunction : List Formula → Option Formula := join .and

/-- The disjunction of formulas, grouped to the left. -/
def disjunction : List Formula → Option Formula := join .or

/-- The number of nodes. -/
def size : Formula → Nat
  | atom _ => 1
  | not f => f.size + 1
  | binary _ f g => f.size + g.size + 1
  | quant _ _ f => f.size + 1

end Formula

end Clausal
