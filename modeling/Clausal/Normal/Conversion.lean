import Clausal.Clause
import Clausal.Normal.Apart
import Clausal.Normal.Arrows
import Clausal.Normal.Distribute
import Clausal.Normal.Negation
import Clausal.Normal.Skolem

/-!
# Conversion to clauses

A conversion passes through all normal forms in turn. It adds renamed variables and Skolem symbols
to the registry, or leaves the registry alone when it fails.
-/

namespace Clausal

namespace Formula

/-- Notes the form a formula has reached. -/
def reach (milestone : Milestone) (f : Formula) : Attempt Unit :=
  note (.reached milestone f)

/-- Passes through all normal forms in turn. -/
def runConversion (cfg : Config) (f : Formula) : Attempt Formula := do
  f.reach .input
  let eliminated := f.eliminateArrows
  eliminated.reach .eliminated
  let nnf := eliminated.toNnf
  nnf.reach .nnf
  let apart ← nnf.standardizeApart
  apart.reach .standardized
  let skolemized ← apart.skolemize cfg
  skolemized.reach .skolemized
  let cnf ← Attempt.ofExcept skolemized.dropUniversals.distribute
  cnf.reach .cnf
  return cnf

/-- The conjunctive normal form of a formula. -/
def toCnf (cfg : Config) (f : Formula) : Attempt Formula :=
  Attempt.atomically (f.runConversion cfg)

/-- The clauses of a formula. -/
def toClauses (cfg : Config) (f : Formula) : Attempt (List Clause) := do
  let cnf ← f.toCnf cfg
  Attempt.ofExcept (Clause.ofCnf cnf)

end Formula

/-- The clauses of all axioms in turn; symbols are kept only when every axiom converts. -/
def clausifyAxioms (cfg : Config) : Attempt (List Clause) :=
  Attempt.atomically do
    let r ← get
    return (← r.axioms.mapM (·.toClauses cfg)).flatten

end Clausal
