import Clausal.Normal.Arrows
import Clausal.Normal.Negation
import Clausal.Proofs.Truth

/-!
# Arrows and negations keep the meaning

Eliminating arrows leaves none and keeps the truth of a formula and its free variables
(`eliminate_arrows_correct`), and so does moving negations to the atoms (`to_nnf_correct`); no
symbols or bound variables come in. The formulas that are left as they are, are the negation normal
forms, and arrows may be eliminated before or on the way (`to_nnf_fixed_iff`).
-/

namespace Clausal

universe u

/-- A negation turns the sign. -/
theorem Formula.signed_nnf_not {sign : Bool} {f : Formula} :
    signedNnf sign (not f) = signedNnf (!sign) f := by
  cases sign <;> rfl

namespace Interpretation

variable {U : Type u} {M : Interpretation U} {s : Assignment U} {f : Formula}

/-- Truth, or falsity for the sign `false`. -/
def HoldsSigned (M : Interpretation U) (s : Assignment U) (sign : Bool) (f : Formula) : Prop :=
  if sign then M.Holds s f else ¬ M.Holds s f

/-- The signed normal form of a formula says that the formula is true, or that it is false. -/
theorem holds_signed_nnf {sign : Bool} :
    M.Holds s (Formula.signedNnf sign f) ↔ M.HoldsSigned s sign f := by
  induction f generalizing s sign with
  | atom => cases sign <;> rfl
  | not f ih =>
      cases sign with
      | true => exact ih
      | false => exact ih.trans not_not.symm
  | binary c f g ihf ihg =>
      cases c <;> cases sign <;>
        simp only [Formula.signedNnf, Holds, Connective.Combines, ihf, ihg, HoldsSigned,
          Bool.false_eq_true, if_true, if_false] <;>
        tauto
  | quant q vs f ih =>
      cases sign with
      | true =>
          simp only [Formula.signedNnf, Holds, holds_for_iff, HoldsSigned, if_true]
          exact Quantifier.ranges_congr (fun _ => Iff.rfl) fun _ _ => ih
      | false =>
          -- the quantifier is turned, so the body is asked to be false for the same values
          simp only [Formula.signedNnf, Holds, holds_for_iff, HoldsSigned, Bool.false_eq_true,
            if_false, Quantifier.not_ranges]
          exact Quantifier.ranges_congr (fun _ => Iff.rfl) fun _ _ => ih

/-- The negation normal form keeps the truth of a formula. -/
theorem holds_to_nnf : M.Holds s f.toNnf ↔ M.Holds s f := by
  have hsigned : M.Holds s (Formula.signedNnf true f) ↔ M.HoldsSigned s true f := holds_signed_nnf
  exact hsigned

end Interpretation

namespace Formula

variable {f g : Formula} {sign : Bool}

theorem is_nnf_signed_nnf : (signedNnf sign f).isNnf = true := by
  induction f generalizing sign with
  | atom => cases sign <;> rfl
  | not f ih => exact signed_nnf_not ▸ ih
  | binary c f g ihf ihg =>
      cases c <;> cases sign <;> simp [signedNnf, isNnf, ihf, ihg]
  | quant q vs f ih => cases sign <;> exact ih

/-- Negations end up at atoms and no arrow is left. -/
theorem is_nnf_to_nnf : f.toNnf.isNnf = true := is_nnf_signed_nnf

/-- A negation normal form is its own. -/
theorem to_nnf_eq_self (h : f.isNnf = true) : f.toNnf = f := by
  refine nnf_induction (P := fun f => f.toNnf = f) ?atom ?not ?and ?or ?quant h
  case atom | not => exact fun _ => rfl
  case and | or => exact fun f g hf hg => congrArg₂ (binary _) hf hg
  case quant => exact fun q vs f hf => congrArg (quant q vs) hf

/-- An implication or an equivalence stands somewhere. -/
def containsArrow : Formula → Bool
  | atom _ => false
  | not f => f.containsArrow
  | implies .. | iff .. => true
  | binary _ f g => f.containsArrow || g.containsArrow
  | quant _ _ f => f.containsArrow

theorem contains_arrow_eliminate_arrows : f.eliminateArrows.containsArrow = false := by
  induction f with
  | atom => rfl
  | not f ih => exact ih
  | binary c f g ihf ihg => cases c <;> simp [eliminateArrows, containsArrow, ihf, ihg]
  | quant q vs f ih => exact ih

/-- A formula without arrows stays as it is. -/
theorem eliminate_arrows_eq_self (h : f.containsArrow = false) : f.eliminateArrows = f := by
  induction f with
  | atom => rfl
  | not f ih => exact congrArg not (ih h)
  | binary c f g ihf ihg =>
      cases c with
      | and | or =>
          obtain ⟨hf, hg⟩ := Bool.or_eq_false_iff.1 h
          exact congrArg₂ (binary _) (ihf hf) (ihg hg)
      | implies | iff => cases h
  | quant q vs f ih => exact congrArg (quant q vs) (ih h)

/-- Eliminating arrows first makes no difference to the negation normal form. -/
theorem signed_nnf_eliminate_arrows : signedNnf sign f.eliminateArrows = signedNnf sign f := by
  induction f generalizing sign with
  | atom => rfl
  | not f ih => rw [eliminateArrows, signed_nnf_not, signed_nnf_not, ih]
  | binary c f g ihf ihg =>
      cases c <;> cases sign <;> simp [eliminateArrows, signedNnf, ihf, ihg]
  | quant q vs f ih => cases sign <;> simp [eliminateArrows, signedNnf, ih]

theorem to_nnf_eliminate_arrows : f.eliminateArrows.toNnf = f.toNnf := signed_nnf_eliminate_arrows

/-- The normal form has the free names of the formula. -/
theorem mem_free_names_signed_nnf {name : String} :
    name ∈ (signedNnf sign f).freeNames ↔ name ∈ f.freeNames := by
  induction f generalizing sign with
  | atom => cases sign <;> rfl
  | not f ih => rw [signed_nnf_not, ih, mem_free_names_not]
  | binary c f g ihf ihg =>
      cases c <;> cases sign <;> simp only [signedNnf, mem_free_names_binary, ihf, ihg] <;> tauto
  | quant q vs f ih => cases sign <;> simp only [signedNnf, mem_free_names_quant, ih]

/-- The normal form has the free variables of the formula in the same order. -/
theorem free_variables_signed_nnf : (signedNnf sign f).freeVariables = f.freeVariables := by
  induction f generalizing sign with
  | atom => cases sign <;> rfl
  | not f ih =>
      rw [signed_nnf_not, ih]
      rfl
  | binary c f g ihf ihg =>
      cases c with
      | and | or | implies =>
          cases sign <;> simp only [signedNnf, free_variables_binary, ihf, ihg]
      | iff =>
          have hagain {c c' : Connective} {s₁ s₂ s₃ s₄ : Bool} :
              (binary c' (signedNnf s₃ g) (signedNnf s₄ f)).freeNames ⊆
                (binary c (signedNnf s₁ f) (signedNnf s₂ g)).freeNames := by
            intro name
            simp only [mem_free_names_binary, mem_free_names_signed_nnf]
            exact Or.symm
          -- so the second part of the normal form adds nothing to the first one
          cases sign <;>
            simp only [signedNnf, free_variables_binary_of_subset hagain, free_variables_binary,
              ihf, ihg]
  | quant q vs f ih => cases sign <;> simp only [signedNnf, free_variables_quant, ih]

/-- What is listed for the parts of a formula, the normal form lists no more of. -/
theorem signed_nnf_subset {α : Type} {m : Formula → List α} {k : List Variable → List α}
    (hnot : ∀ f, m (not f) = m f) (hbinary : ∀ c f g, m (binary c f g) = m f ++ m g)
    (hquant : ∀ q vs f, m (quant q vs f) = k vs ++ m f) : m (signedNnf sign f) ⊆ m f := by
  induction f generalizing sign with
  | atom a =>
      cases sign with
      | true => exact List.Subset.refl _
      | false => exact (hnot (atom a)).symm ▸ List.Subset.refl _
  | not f ih =>
      rw [signed_nnf_not, hnot]
      exact ih
  | binary c f g ihf ihg =>
      have hf {sign} : m (signedNnf sign f) ⊆ m f ++ m g :=
        List.subset_append_of_subset_left _ ihf
      have hg {sign} : m (signedNnf sign g) ⊆ m f ++ m g :=
        List.subset_append_of_subset_right _ ihg
      -- both sides of an equivalence stand there twice, and nothing else is new
      cases c <;> cases sign <;>
        simp only [signedNnf, hbinary, List.append_subset, hf, hg, and_self]
  | quant q vs f ih =>
      cases sign <;>
        simp only [signedNnf, hquant, List.append_subset, List.subset_append_left, true_and] <;>
        exact List.subset_append_of_subset_right _ ih

/-- The normal form mentions no symbol that the formula does not mention. -/
theorem symbols_signed_nnf_subset : (signedNnf sign f).symbols ⊆ f.symbols :=
  signed_nnf_subset (fun _ => rfl) (fun _ _ _ => rfl) (fun _ _ _ => rfl)

/-- The normal form binds no variable that the formula does not bind. -/
theorem binders_signed_nnf_subset : (signedNnf sign f).binders ⊆ f.binders :=
  signed_nnf_subset (k := id) (fun _ => rfl) (fun _ _ _ => rfl) (fun _ _ _ => rfl)

end Formula

/-! ## Main statements -/

/-- Eliminating arrows leaves none, and changes no formula that had none before. It keeps the truth
of a formula, and the free variables in the same order. -/
theorem eliminate_arrows_correct (f : Formula) :
    f.eliminateArrows.containsArrow = false ∧
      (f.eliminateArrows = f ↔ f.containsArrow = false) ∧
      (∀ {U : Type u} (M : Interpretation U) (s : Assignment U),
        M.Holds s f.eliminateArrows ↔ M.Holds s f) ∧
      f.eliminateArrows.freeVariables = f.freeVariables := by
  -- both formulas have one negation normal form, which has the truth and the variables of either
  have hnnf : f.eliminateArrows.toNnf = f.toNnf := Formula.to_nnf_eliminate_arrows
  refine ⟨Formula.contains_arrow_eliminate_arrows,
    ⟨fun h => h ▸ Formula.contains_arrow_eliminate_arrows, Formula.eliminate_arrows_eq_self⟩,
    fun M s => ?_, ?_⟩
  · rw [← Interpretation.holds_to_nnf, hnnf, Interpretation.holds_to_nnf]
  · have hfree {g : Formula} : g.toNnf.freeVariables = g.freeVariables :=
      Formula.free_variables_signed_nnf
    rw [← hfree, hnnf, hfree]

/-- The negation normal form of a formula is one, is true in the same structures under the same
assignments, and has the same free variables in the same order. -/
theorem to_nnf_correct (f : Formula) :
    f.toNnf.isNnf = true ∧
      (∀ {U : Type u} (M : Interpretation U) (s : Assignment U), M.Holds s f.toNnf ↔ M.Holds s f) ∧
      f.toNnf.freeVariables = f.freeVariables :=
  ⟨Formula.is_nnf_to_nnf, fun _ _ => Interpretation.holds_to_nnf,
    Formula.free_variables_signed_nnf⟩

/-- Arrows may be eliminated on the way or before, which leaves none and keeps the truth. The
formulas that are left as they are, are the negation normal forms, so that a second pass changes
nothing. -/
theorem to_nnf_fixed_iff (f : Formula) :
    f.eliminateArrows.toNnf = f.toNnf ∧ (f.toNnf = f ↔ f.isNnf = true) ∧
      f.toNnf.toNnf = f.toNnf ∧ f.eliminateArrows.containsArrow = false ∧
      ∀ {U : Type u} (M : Interpretation U) (s : Assignment U),
        M.Holds s f.eliminateArrows ↔ M.Holds s f := by
  have hfixed {f : Formula} : f.toNnf = f ↔ f.isNnf = true :=
    ⟨fun h => h ▸ Formula.is_nnf_to_nnf, Formula.to_nnf_eq_self⟩
  obtain ⟨hnone, -, htruth, -⟩ := eliminate_arrows_correct f
  exact ⟨Formula.to_nnf_eliminate_arrows, hfixed, hfixed.2 Formula.is_nnf_to_nnf, hnone, htruth⟩

end Clausal
