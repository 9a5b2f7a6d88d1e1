import Clausal.Clause

/-!
# Clauses as records

The form in which clauses are exchanged. It keeps the names of symbols, their kinds and the domains
of closed-world variables; the arity of a predicate is the number of its arguments.
-/

namespace Clausal.Exchange

/-- A term as a record. -/
inductive TermRecord where
  | var (name : String) (domain : Option (List String))
  | const (name : String)
  | skolem (name : String) (args : List TermRecord)

/-- An atom as a record. -/
structure AtomRecord where
  predicate : String
  args : List TermRecord

/-- A literal as a record. -/
structure LiteralRecord where
  polarity : Bool
  atom : AtomRecord

/-- A clause as a record. -/
structure ClauseRecord where
  literals : List LiteralRecord

namespace TermRecord

mutual

/-- The record of a term. -/
def ofTerm : Term → TermRecord
  | .const c => const c.name
  | .var v => var v.name (v.domain.map fun cs => cs.map (·.name))
  | .skolem name args => skolem name (ofTerms args)

/-- The records of several terms. -/
def ofTerms : List Term → List TermRecord
  | [] => []
  | t :: ts => ofTerm t :: ofTerms ts

end

end TermRecord

/-- The record of an atom. -/
def AtomRecord.ofAtom (a : Atom) : AtomRecord :=
  ⟨a.predicate.name, a.terms.map TermRecord.ofTerm⟩

/-- The record of a literal. -/
def LiteralRecord.ofLiteral (l : Literal) : LiteralRecord := ⟨l.polarity, .ofAtom l.atom⟩

/-- The record of a clause. -/
def ClauseRecord.ofClause (c : Clause) : ClauseRecord := ⟨c.literals.map .ofLiteral⟩

end Clausal.Exchange
