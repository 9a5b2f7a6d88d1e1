import Clausal.Proofs.Outcome
import Clausal.Proofs.Stable

/-!
# Conversions of normal forms

A formula in conjunctive normal form passes through every stage of a conversion as it is, whatever
the configuration: it has no arrow and no compound negation, binds no variable, and has no
conjunction under a disjunction. As every conversion ends in such a form, these formulas are exactly
the fixed points (`to_cnf_fixed_iff`).
-/

namespace Clausal

variable {cfg : Config} {f g : Formula} {r : Registry}

namespace Formula

/-! ## Shapes -/

/-- Induction over disjunctions of literals. -/
theorem clause_induction {P : Formula → Prop} (atom : ∀ a, P (atom a))
    (not : ∀ a, P (not (.atom a))) (or : ∀ f g, P f → P g → P (or f g))
    (h : f.isClause = true) : P f := by
  induction f with
  | atom a => exact atom a
  | not f _ =>
      cases f with
      | atom a => exact not a
      | not | binary | quant => cases h
  | binary c f g ihf ihg =>
      cases c with
      | or =>
          obtain ⟨hf, hg⟩ := Bool.and_eq_true_iff.1 h
          exact or f g (ihf hf) (ihg hg)
      | and | implies | iff => cases h
  | quant => cases h

/-- Induction over conjunctive normal forms. -/
theorem cnf_induction {P : Formula → Prop} (clause : ∀ f, f.isClause = true → P f)
    (and : ∀ f g, P f → P g → P (and f g)) (h : f.isCnf = true) : P f := by
  fun_induction isCnf f with
  | case1 f g ihf ihg =>
      obtain ⟨hf, hg⟩ := Bool.and_eq_true_iff.1 h
      exact and f g (ihf hf) (ihg hg)
  | case2 f => exact clause f h

/-- A conjunctive normal form is a negation normal form without quantifiers. -/
theorem is_nnf_of_is_cnf (h : f.isCnf = true) :
    f.isNnf = true ∧ f.containsQuantifier = false := by
  have hjoined {c : Connective} (hc : c = .and ∨ c = .or) (f g : Formula)
      (hf : f.isNnf = true ∧ f.containsQuantifier = false)
      (hg : g.isNnf = true ∧ g.containsQuantifier = false) :
      (binary c f g).isNnf = true ∧ (binary c f g).containsQuantifier = false := by
    rcases hc with rfl | rfl <;>
      exact ⟨Bool.and_eq_true_iff.2 ⟨hf.1, hg.1⟩, Bool.or_eq_false_iff.2 ⟨hf.2, hg.2⟩⟩
  refine cnf_induction (P := fun f => f.isNnf = true ∧ f.containsQuantifier = false)
    (fun f hclause => ?_) (hjoined (.inl rfl)) h
  exact clause_induction (P := fun f => f.isNnf = true ∧ f.containsQuantifier = false)
    (fun _ => ⟨rfl, rfl⟩) (fun _ => ⟨rfl, rfl⟩) (hjoined (.inr rfl)) hclause

/-! ## Stages -/

/-- Without quantifiers there is nothing to drop. -/
theorem drop_eq_self (h : f.containsQuantifier = false) : f.dropUniversals = f := by
  induction f with
  | atom => rfl
  | not _ ih => exact congrArg not (ih h)
  | binary c _ _ ihf ihg =>
      obtain ⟨hf, hg⟩ := Bool.or_eq_false_iff.1 h
      exact congrArg₂ (binary c) (ihf hf) (ihg hg)
  | quant => cases h

/-- The disjunction of two disjunctions of literals needs no distribution. -/
theorem or_cnf_of_is_clause (hf : f.isClause = true) (hg : g.isClause = true) :
    orCnf f g = or f g := by
  have hclauses : orClauses f g = or f g := by
    fun_cases orClauses f g with
    | case1 => cases hg
    | case2 => rfl
  fun_cases orCnf f g with
  | case1 => cases hf
  | case2 => exact hclauses

/-- A conjunctive normal form is its own. -/
theorem distribute_eq_self (h : f.isCnf = true) : f.distribute = .ok f := by
  refine cnf_induction (P := fun f => f.distribute = .ok f) (fun f hclause => ?_)
    (fun f g hf hg => ?_) h
  · -- the rule for disjunctions asks for the shape of both sides, so it is kept beside the claim
    refine (clause_induction (P := fun f => f.isClause = true ∧ f.distribute = .ok f)
      (fun _ => ⟨rfl, rfl⟩) (fun _ => ⟨rfl, rfl⟩) (fun f g hf hg => ⟨?_, ?_⟩) hclause).2
    · exact Bool.and_eq_true_iff.2 ⟨hf.1, hg.1⟩
    · simp only [distribute, hf.2, hg.2]
      exact congrArg Except.ok (or_cnf_of_is_clause hf.1 hg.1)
  · simp only [distribute, hf, hg]
    rfl

/-- A walk down a negation normal form without quantifiers mints nothing and replaces nothing. -/
theorem skolem_walk_yields_self (hnnf : f.isNnf = true) (hquant : f.containsQuantifier = false)
    (us : List Variable) (copies : Nat) : (f.skolemWalk cfg us copies []).Yields r f r := by
  refine nnf_induction (P := fun f => f.containsQuantifier = false →
    (f.skolemWalk cfg us copies []).Yields r f r) ?atom ?not ?and ?or ?quant hnnf hquant
  case atom | not => exact fun _ _ => Attempt.yields_pure.2 ⟨rfl, rfl⟩
  case and | or =>
    intro f g ihf ihg h
    obtain ⟨hf, hg⟩ := Bool.or_eq_false_iff.1 h
    simp only [skolemWalk, Attempt.yields_bind, Attempt.yields_pure]
    exact ⟨f, r, ihf hf, g, r, ihg hg, rfl, rfl⟩
  case quant =>
    intro q vs f _ h
    cases h

end Formula

/-- A formula without quantifiers has its variables apart. -/
theorem standardize_apart_eq_self (hquant : f.containsQuantifier = false) :
    (f.standardizeApart.run r).value = (f, r) := by
  have hbinders : f.binders = [] := Formula.binders_eq_nil hquant
  have hapart : f.IsApart := ⟨by simp [hbinders], by simp [hbinders]⟩
  have hcarries : f.CarriesBinders [] := carries_binders_of_eq (by simp [hbinders])
  exact congrArg Logged.value (standardize_apart_run hcarries hapart r)

/-! ## Whole conversions -/

/-- A conjunctive normal form is converted into itself, and the registry stays as it is. -/
theorem to_cnf_yields_self (cfg : Config) (h : f.isCnf = true) (r : Registry) :
    (f.toCnf cfg).Yields r f r := by
  obtain ⟨hnnf, hquant⟩ := Formula.is_nnf_of_is_cnf h
  have hapart : (f.standardizeApart.run r).value = (f, r) := standardize_apart_eq_self hquant
  have hwalk : (f.skolemWalk cfg [] 1 []).Yields r f r :=
    Formula.skolem_walk_yields_self hnnf hquant [] 1
  have hdistribute : f.dropUniversals.distribute = .ok f := by
    rw [Formula.drop_eq_self hquant, Formula.distribute_eq_self h]
  simp only [Formula.toCnf, Formula.runConversion, Formula.reach, Formula.skolemize,
    Formula.to_nnf_eliminate_arrows, Formula.to_nnf_eq_self hnnf, Attempt.yields_atomically,
    Attempt.yields_bind, Attempt.yields_note, Attempt.yields_action, Attempt.yields_of_except,
    Attempt.yields_pure, exists_const, exists_eq_left]
  exact ⟨f, r, hapart, f, r, hwalk, f, r, ⟨hdistribute, rfl⟩, rfl, rfl⟩

/-- The formulas that a conversion gives back as they are, whatever the configuration, are the
conjunctive normal forms; they leave the registry alone. So the result of a conversion is not
changed by another one, under any configuration and from any registry. -/
theorem to_cnf_fixed_iff (cfg : Config) (f : Formula) (r : Registry) :
    ((f.toCnf cfg).outcome r = .ok f ↔ f.isCnf = true) ∧
      (f.isCnf = true → (f.toCnf cfg).after r = r) ∧
      ∀ c, (f.toCnf cfg).outcome r = .ok c → ∀ cfg' r',
        (c.toCnf cfg').outcome r' = .ok c ∧ (c.toCnf cfg').after r' = r' := by
  refine ⟨⟨fun h => ?_, fun h => ?_⟩, fun h => ?_, fun c h cfg' r' => ?_⟩
  · exact (to_cnf_is_cnf (Attempt.yields_of_outcome h)).1
  · exact (to_cnf_yields_self cfg h r).1
  · exact (to_cnf_yields_self cfg h r).2
  · exact to_cnf_yields_self cfg' (to_cnf_is_cnf (Attempt.yields_of_outcome h)).1 r'

open Sample in
/-- A formula that is no normal form and its normal form, converted again from another registry
under a configuration that refuses whatever can be refused. -/
theorem to_cnf_fixed_iff_mixed :
    let strict : Config := { expansionLimit := 0, skolemFunctions := false }
    (mixed.toCnf {}).outcome registry = .ok mixedCnf ∧
      (mixed.toCnf {}).outcome registry ≠ .ok mixed ∧
      mixedCnf.isCnf = true ∧ (mixedCnf.toCnf strict).outcome .empty = .ok mixedCnf ∧
      (mixedCnf.toCnf strict).after .empty = .empty := by
  intro strict
  have hcnf : (mixed.toCnf {}).outcome registry = .ok mixedCnf := rfl
  obtain ⟨hfixed, -, hagain⟩ := to_cnf_fixed_iff {} mixed registry
  obtain ⟨hsame, hkept⟩ := hagain mixedCnf hcnf strict .empty
  have hshape : mixedCnf.isCnf = true := (to_cnf_fixed_iff strict mixedCnf .empty).1.1 hsame
  exact ⟨hcnf, fun h => absurd (hfixed.1 h) (by decide), hshape, hsame, hkept⟩

end Clausal
