/-!
# Configuration

What a conversion may do: how far a closed-world existential is expanded, whether Skolem functions
are allowed, and how minted names begin.
-/

namespace Clausal

/-- The settings of a conversion. -/
structure Config where
  expansionLimit : Nat := 4096
  skolemFunctions : Bool := true
  skolemPrefix : String := "sk"
deriving DecidableEq

/-- The default settings with another limit. -/
def Config.ofLimit (expansionLimit : Nat) : Config := { expansionLimit }

end Clausal
