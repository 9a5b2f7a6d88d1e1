import Clausal.Formula

/-!
# Implications and equivalences eliminated

`A ⇒ B` becomes `¬A ∨ B`, and `A ⇔ B` becomes `(¬A ∨ B) ∧ (¬B ∨ A)`.
-/

namespace Clausal.Formula

/-- The formula without implications and equivalences. -/
def eliminateArrows : Formula → Formula
  | atom a => atom a
  | not f => not f.eliminateArrows
  | implies f g => or (not f.eliminateArrows) g.eliminateArrows
  | iff f g =>
    and (or (not f.eliminateArrows) g.eliminateArrows)
      (or (not g.eliminateArrows) f.eliminateArrows)
  | binary c f g => binary c f.eliminateArrows g.eliminateArrows
  | quant q vs f => quant q vs f.eliminateArrows

end Clausal.Formula
