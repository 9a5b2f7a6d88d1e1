import Clausal.Formula

/-!
# Negation normal form

Negations move down to the atoms by De Morgan's laws and the duality of the quantifiers; arrows met
on the way are eliminated.
-/

namespace Clausal.Formula

/-- The negation normal form of `f` for `true` and of its negation for `false`. -/
def signedNnf : Bool → Formula → Formula
  | true, atom a => atom a
  | false, atom a => not (atom a)
  | s, not f => signedNnf (!s) f
  | true, and f g => and (signedNnf true f) (signedNnf true g)
  | false, and f g => or (signedNnf false f) (signedNnf false g)
  | true, or f g => or (signedNnf true f) (signedNnf true g)
  | false, or f g => and (signedNnf false f) (signedNnf false g)
  | true, implies f g => or (signedNnf false f) (signedNnf true g)
  | false, implies f g => and (signedNnf true f) (signedNnf false g)
  | true, iff f g =>
    and (or (signedNnf false f) (signedNnf true g)) (or (signedNnf false g) (signedNnf true f))
  | false, iff f g =>
    or (and (signedNnf true f) (signedNnf false g)) (and (signedNnf true g) (signedNnf false f))
  | true, quant q vs f => quant q vs (signedNnf true f)
  | false, quant q vs f => quant q.dual vs (signedNnf false f)

/-- The negation normal form. -/
def toNnf (f : Formula) : Formula := signedNnf true f

end Clausal.Formula
