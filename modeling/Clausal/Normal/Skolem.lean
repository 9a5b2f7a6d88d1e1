import Clausal.Config
import Clausal.Formula.Free
import Clausal.Registry.Fresh

/-!
# Skolemization

Existential quantifiers go away. An open variable becomes a Skolem term over the enclosing
universal variables, a constant when there are none. A closed-world variable becomes a disjunction
over its domain, unless the copies that this makes of a subformula exceed the limit.

The walk goes down the formula as it was given. What is to be put in place of the variables bound
above is carried along as a list of pending replacements, which are carried out one after the other
at the atoms.
-/

namespace Clausal

/-- Terms to be put in place of variables, one after the other. -/
abbrev Pending := List (Variable × Term)

namespace Pending

/-- Carries out the replacements. -/
def apply (pending : Pending) (a : Atom) : Atom :=
  pending.foldl (fun a (x, s) => a.subst x s) a

/-- The replacements that reach below a quantifier over `vs`. -/
def below (pending : Pending) (vs : List Variable) : Pending :=
  pending.filter fun (x, _) => !x.isAmong vs

end Pending

/-- The largest number of copies that is told from larger ones, the last of 64 bits. -/
def copyCap : Nat := 0xFFFFFFFFFFFFFFFF

/-- Multiplies numbers of copies, giving the cap as soon as a product exceeds it. -/
def countCopies : Nat → List Nat → Nat
  | n, [] => n
  | n, k :: ks => if n * k ≤ copyCap then countCopies (n * k) ks else copyCap

/-- A closed-world variable with its domain. -/
abbrev DomainOf := Variable × List Constant

/-- The closed-world variables among `vs`. -/
def closedWorld (vs : List Variable) : List DomainOf :=
  vs.filterMap fun v => v.domain.map fun cs => (v, cs)

/-- The ways to choose constants from the domains, those of the first variable changing last. -/
def choices : List DomainOf → List Pending
  | [] => [[]]
  | (v, cs) :: rest => cs.flatMap fun c => (choices rest).map fun p => (v, Term.const c) :: p

/-- The Skolem term for an open variable below the universal variables. -/
def skolemTerm (cfg : Config) (universals : List Variable) (v : Variable) : Attempt Term :=
  if universals.isEmpty then
    return .const (← mintConstant cfg.skolemPrefix)
  else if cfg.skolemFunctions then
    mintFunction cfg.skolemPrefix (universals.map .var)
  else
    throw (.skolemFunctionUnsupported v.sourceName)

/-- Skolem terms for the open variables among `vs`. -/
def skolemTerms (cfg : Config) (universals vs : List Variable) : Attempt Pending :=
  (vs.filter fun v => !v.isClosedWorld).mapM fun v => do
    return (v, ← skolemTerm cfg universals v)

/-- The number of copies after expanding the variables, refused above the limit. -/
def checkExpansion (cfg : Config) (copies : Nat) (closed : List DomainOf) : Attempt Nat := do
  if closed.isEmpty then
    return copies
  let required := countCopies copies (closed.map (·.2.length))
  if required > cfg.expansionLimit then
    note (.refusedExpansion (closed.map (·.1)) required cfg.expansionLimit)
    throw (.expansionTooLarge required cfg.expansionLimit)
  return required

namespace Formula

/-- Refuses a shape that Skolemization has no rule for. -/
def notSkolemizable (shape : Shape) : Attempt Formula :=
  throw (.unsupportedShape shape .skolemization)

/-- Skolemizes below the given universal variables, where `copies` counts the copies being made of
this subformula. -/
def skolemWalk (cfg : Config) (universals : List Variable) (copies : Nat) (pending : Pending) :
    Formula → Attempt Formula
  | atom a => return atom (pending.apply a)
  | not (atom a) => return not (atom (pending.apply a))
  | not _ => notSkolemizable .negatedCompound
  | implies _ _ => notSkolemizable .implication
  | iff _ _ => notSkolemizable .equivalence
  | binary c f g => do
    let f' ← f.skolemWalk cfg universals copies pending
    let g' ← g.skolemWalk cfg universals copies pending
    return binary c f' g'
  | all vs f => return all vs (← f.skolemWalk cfg (universals ++ vs) copies (pending.below vs))
  | ex vs f => do
    let terms ← skolemTerms cfg universals vs
    let copies ← checkExpansion cfg copies (closedWorld vs)
    let pending := pending.below vs ++ terms
    let instances ← (choices (closedWorld vs)).mapM fun choice =>
      f.skolemWalk cfg universals copies (pending ++ choice)
    match disjunction instances with
    | some g => return g
    | none => f.skolemWalk cfg universals copies pending

/-- The formula without existential quantifiers; universal ones stay. -/
def skolemize (cfg : Config) (f : Formula) : Attempt Formula :=
  Attempt.atomically (f.skolemWalk cfg [] 1 [])

/-- The formula without universal quantifiers, whose variables become free. -/
def dropUniversals : Formula → Formula
  | atom a => atom a
  | not f => not f.dropUniversals
  | binary c f g => binary c f.dropUniversals g.dropUniversals
  | all _ f => f.dropUniversals
  | ex vs f => ex vs f.dropUniversals

end Formula

end Clausal
