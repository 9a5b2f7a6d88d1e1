/-!
# Errors

What can go wrong, as causes; the wording stands in `Error.message` alone.
-/

namespace Clausal

/-- The kinds of symbol that have a namespace of their own. -/
inductive SymbolKind where
  | const
  | var
  | pred
deriving DecidableEq

/-- Parts of a formula that a stage has no rule for. -/
inductive Shape where
  | negatedCompound
  | nonLiteralNegation
  | conjunctionInClause
  | implication
  | equivalence
  | quantifier
deriving DecidableEq

/-- The stages that refuse some shapes. -/
inductive Stage where
  | skolemization
  | distribution
  | clauseExtraction
deriving DecidableEq

/-- What is wrong with the text of a configuration. -/
inductive ConfigFault where
  | malformed
  | invalidPrefix (given : String)
deriving DecidableEq

/-- The causes of failure. -/
inductive Error where
  | duplicateName (kind : SymbolKind) (name : String)
  | invalidName (kind : SymbolKind) (name : String)
  | invalidArity (predicate : String) (arity : Nat)
  | arityMismatch (predicate : String) (expected actual : Nat)
  | emptyDomain (name : String)
  | notAFormula (term : String)
  | emptyBinding
  | unsupportedShape (shape : Shape) (stage : Stage)
  | expansionTooLarge (required limit : Nat)
  | skolemFunctionUnsupported (name : String)
  | config (fault : ConfigFault)
deriving DecidableEq

/-- The word for a kind of symbol. -/
def SymbolKind.word : SymbolKind → String
  | const => "constant"
  | var => "variable"
  | pred => "predicate"

/-- The words for a shape. -/
def Shape.words : Shape → String
  | negatedCompound => "a negated compound formula"
  | nonLiteralNegation => "a non-literal negation"
  | conjunctionInClause => "a conjunction under a disjunction"
  | implication => "an implication"
  | equivalence => "an equivalence"
  | quantifier => "a quantifier"

/-- The words for a stage. -/
def Stage.words : Stage → String
  | skolemization => "skolemization"
  | distribution => "distribution"
  | clauseExtraction => "clause extraction"

/-- The words for a fault in a configuration. -/
def ConfigFault.words : ConfigFault → String
  | malformed => "the text does not describe a configuration"
  | invalidPrefix given => "skolem prefix `" ++ given ++ "` must be non-empty without whitespace"

/-- What a failure tells the reader. -/
def Error.message : Error → String
  | duplicateName kind name => "there is already a " ++ kind.word ++ " named `" ++ name ++ "`"
  | invalidName kind name =>
    "invalid " ++ kind.word ++ " name `" ++ name ++
      "`: names must be non-empty and contain no whitespace"
  | invalidArity predicate arity =>
    "predicate `" ++ predicate ++ "` declared with arity " ++ arity.repr ++
      ", arity must be at least 1"
  | arityMismatch predicate expected actual =>
    "predicate `" ++ predicate ++ "` expects " ++ expected.repr ++
      " term(s) but was applied to " ++ actual.repr
  | emptyDomain name => "closed-world variable `" ++ name ++ "` declared with an empty domain"
  | notAFormula term => "`" ++ term ++ "` is a term, not a formula, and cannot be asserted"
  | emptyBinding => "a quantifier must bind at least one variable"
  | unsupportedShape shape stage =>
    "unsupported connective shape: " ++ shape.words ++ " reached the " ++ stage.words ++ " stage"
  | expansionTooLarge required limit =>
    "closed-world expansion needs " ++ required.repr ++ " instances, above the limit of " ++
      limit.repr
  | skolemFunctionUnsupported name =>
    "existential variable `" ++ name ++
      "` lies under a universal quantifier and skolem functions are disabled"
  | config fault => "invalid configuration: " ++ fault.words

end Clausal
