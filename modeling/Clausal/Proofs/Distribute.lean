import Clausal.Clause
import Clausal.Normal.Distribute
import Clausal.Proofs.Truth

/-!
# Distribution and extraction of clauses

Distributing disjunctions keeps the truth of a formula, and what stands at its atoms but for
repetitions (`holds_distribute`, `mem_distribute`). The clauses of a conjunctive normal form are
all true exactly when the formula is (`holds_of_cnf`), and hold what stands in it
(`flat_map_of_cnf`).
-/

namespace Clausal

open Variable (names)

universe u

/-- Two computations one after the other succeed when both do. -/
theorem except_bind_eq_ok {ε α β : Type} {x : Except ε α} {h : α → Except ε β} {b : β} :
    (x >>= h) = .ok b ↔ ∃ a, x = .ok a ∧ h a = .ok b := by
  cases x with
  | error e => exact ⟨fun hb => (nomatch hb), fun ⟨_, ha, _⟩ => (nomatch ha)⟩
  | ok a => exact ⟨fun hb => ⟨a, rfl, hb⟩, fun ⟨_, ha, hb⟩ => Except.ok.inj ha ▸ hb⟩

theorem exists_ok_of_is_ok {ε α : Type} {x : Except ε α} (h : x.isOk = true) :
    ∃ a, x = .ok a := by
  cases x with
  | error e => cases h
  | ok a => exact ⟨a, rfl⟩

namespace Formula

variable {f g : Formula}

/-- Induction over successful distributions. -/
theorem distribute_induction {P : Formula → Formula → Prop} (atom : ∀ a, P (atom a) (atom a))
    (not : ∀ a, P (not (.atom a)) (not (.atom a)))
    (and : ∀ {f f' g g'}, P f f' → P g g' → P (and f g) (and f' g'))
    (or : ∀ {f f' g g'}, P f f' → P g g' → P (or f g) (orCnf f' g'))
    (h : f.distribute = .ok g) : P f g := by
  induction f generalizing g with
  | atom a =>
      cases h
      exact atom a
  | not f _ =>
      cases f with
      | atom a =>
          cases h
          exact not a
      | not | binary | quant => cases h
  | binary c f₁ f₂ ih₁ ih₂ =>
      cases c with
      | and =>
          simp only [distribute, except_bind_eq_ok] at h
          obtain ⟨g₁, h₁, g₂, h₂, h⟩ := h
          cases h
          exact and (ih₁ h₁) (ih₂ h₂)
      | or =>
          simp only [distribute, except_bind_eq_ok] at h
          obtain ⟨g₁, h₁, g₂, h₂, h⟩ := h
          cases h
          exact or (ih₁ h₁) (ih₂ h₂)
      | implies | iff => cases h
  | quant => cases h

/-! ## What stands at the atoms -/

section Listed

variable {α : Type} {m : Formula → List α} {x : α}

/-- Distribution repeats and reorders parts, and leaves none out. -/
theorem mem_or_clauses (hm : ∀ c f g, m (binary c f g) = m f ++ m g) :
    x ∈ m (orClauses f g) ↔ x ∈ m f ∨ x ∈ m g := by
  fun_induction orClauses f g with
  | case1 g h ihg ihh =>
      simp only [hm, List.mem_append, ihg, ihh]
      tauto
  | case2 => simp only [hm, List.mem_append]

theorem mem_or_cnf (hm : ∀ c f g, m (binary c f g) = m f ++ m g) :
    x ∈ m (orCnf f g) ↔ x ∈ m f ∨ x ∈ m g := by
  fun_induction orCnf f g with
  | case1 f g h ihf ihg =>
      simp only [hm, List.mem_append, ihf, ihg]
      tauto
  | case2 => exact mem_or_clauses hm

theorem mem_distribute (hm : ∀ c f g, m (binary c f g) = m f ++ m g)
    (h : f.distribute = .ok g) : x ∈ m g ↔ x ∈ m f := by
  refine distribute_induction (P := fun f g => x ∈ m g ↔ x ∈ m f) ?atom ?not ?and ?or h
  case atom | not => exact fun _ => Iff.rfl
  case and =>
    intro f f' g g' hf hg
    simp only [hm, List.mem_append, hf, hg]
  case or =>
    intro f f' g g' hf hg
    rw [mem_or_cnf hm, hm, List.mem_append, hf, hg]

end Listed

/-! ## Quantifiers -/

theorem contains_quantifier_or_cnf :
    (orCnf f g).containsQuantifier = (f.containsQuantifier || g.containsQuantifier) := by
  have hclauses {f} :
      (orClauses f g).containsQuantifier = (f.containsQuantifier || g.containsQuantifier) := by
    fun_induction orClauses f g with
    | case1 g h ihg ihh =>
        simp only [containsQuantifier, ihg, ihh]
        cases f.containsQuantifier <;> simp
    | case2 => rfl
  fun_induction orCnf f g with
  | case1 f g h ihf ihg =>
      simp only [containsQuantifier, ihf hclauses, ihg hclauses]
      cases h.containsQuantifier <;> simp
  | case2 => exact hclauses

/-- What can be distributed holds no quantifier, before and after. -/
theorem contains_quantifier_distribute (h : f.distribute = .ok g) :
    g.containsQuantifier = false := by
  refine distribute_induction (P := fun _ g => g.containsQuantifier = false)
    ?atom ?not ?and ?or h
  case atom | not => exact fun _ => rfl
  case and => exact fun hf hg => Bool.or_eq_false_iff.2 ⟨hf, hg⟩
  case or => exact fun hf hg => contains_quantifier_or_cnf.trans (Bool.or_eq_false_iff.2 ⟨hf, hg⟩)

/-! ## Shape -/

/-- Every negation normal form without quantifiers can be distributed. -/
theorem exists_distribute (hnnf : f.isNnf = true) (hquant : f.containsQuantifier = false) :
    ∃ g, f.distribute = .ok g := by
  refine nnf_induction (P := fun f => f.containsQuantifier = false → ∃ g, f.distribute = .ok g)
    ?atom ?not ?and ?or ?quant hnnf hquant
  case atom => exact fun a _ => ⟨.atom a, rfl⟩
  case not => exact fun a _ => ⟨.not (.atom a), rfl⟩
  case quant => exact fun _ _ _ _ h => nomatch h
  case and =>
    intro f g ihf ihg h
    obtain ⟨hf, hg⟩ := Bool.or_eq_false_iff.1 h
    obtain ⟨f', hf'⟩ := ihf hf
    obtain ⟨g', hg'⟩ := ihg hg
    exact ⟨.and f' g', by simp only [distribute, hf', hg']; rfl⟩
  case or =>
    intro f g ihf ihg h
    obtain ⟨hf, hg⟩ := Bool.or_eq_false_iff.1 h
    obtain ⟨f', hf'⟩ := ihf hf
    obtain ⟨g', hg'⟩ := ihg hg
    exact ⟨orCnf f' g', by simp only [distribute, hf', hg']; rfl⟩

theorem is_cnf_or_clauses (hf : f.isClause = true) (hg : g.isCnf = true) :
    (orClauses f g).isCnf = true := by
  fun_induction orClauses f g with
  | case1 g h ihg ihh =>
      obtain ⟨hg, hh⟩ := Bool.and_eq_true_iff.1 hg
      exact Bool.and_eq_true_iff.2 ⟨ihg hg, ihh hh⟩
  | case2 g hne =>
      rw [isCnf] at hg
      · exact Bool.and_eq_true_iff.2 ⟨hf, hg⟩
      · exact hne

theorem is_cnf_or_cnf (hf : f.isCnf = true) (hg : g.isCnf = true) :
    (orCnf f g).isCnf = true := by
  fun_induction orCnf f g with
  | case1 f g h ihf ihg =>
      obtain ⟨hf, hg'⟩ := Bool.and_eq_true_iff.1 hf
      exact Bool.and_eq_true_iff.2 ⟨ihf hf hg, ihg hg' hg⟩
  | case2 f g hne =>
      rw [isCnf] at hf
      · exact is_cnf_or_clauses hf hg
      · exact hne

/-- Distribution leaves no conjunction under a disjunction. -/
theorem is_cnf_distribute (h : f.distribute = .ok g) : g.isCnf = true := by
  refine distribute_induction (P := fun _ g => g.isCnf = true) ?atom ?not ?and ?or h
  case atom | not => exact fun _ => rfl
  case and => exact fun hf hg => Bool.and_eq_true_iff.2 ⟨hf, hg⟩
  case or => exact is_cnf_or_cnf

end Formula

/-! ## Truth -/

namespace Interpretation

variable {U : Type u} {M : Interpretation U} {s : Assignment U} {f g : Formula}

theorem holds_or_clauses : M.Holds s (Formula.orClauses f g) ↔ M.Holds s f ∨ M.Holds s g := by
  fun_induction Formula.orClauses f g with
  | case1 g h ihg ihh =>
      simp only [Holds, Connective.Combines, ihg, ihh]
      tauto
  | case2 => rfl

theorem holds_or_cnf : M.Holds s (Formula.orCnf f g) ↔ M.Holds s f ∨ M.Holds s g := by
  fun_induction Formula.orCnf f g with
  | case1 f g h ihf ihg =>
      simp only [Holds, Connective.Combines, ihf, ihg]
      tauto
  | case2 => exact holds_or_clauses

/-- Distribution keeps the truth of a formula. -/
theorem holds_distribute (h : f.distribute = .ok g) : M.Holds s g ↔ M.Holds s f := by
  refine Formula.distribute_induction (P := fun f g => M.Holds s g ↔ M.Holds s f)
    ?atom ?not ?and ?or h
  case atom | not => exact fun _ => Iff.rfl
  case and => exact fun hf hg => and_congr hf hg
  case or => exact fun hf hg => holds_or_cnf.trans (or_congr hf hg)

end Interpretation

/-! ## Clauses -/

namespace Clause

/-- The variables of a clause from left to right, with repetitions. -/
def vars (c : Clause) : List Variable := c.literals.flatMap fun l => l.atom.vars

/-- The symbols of a clause. -/
def symbols (c : Clause) : List Symbol := c.literals.flatMap fun l => l.atom.symbols

variable {f : Formula} {ls : List Literal} {cs : List Clause}

/-- Induction over successful extractions of literals. -/
theorem literals_of_induction {P : Formula → List Literal → Prop}
    (atom : ∀ a, P (.atom a) [⟨true, a⟩]) (not : ∀ a, P (.not (.atom a)) [⟨false, a⟩])
    (or : ∀ {f g ls ms}, P f ls → P g ms → P (.or f g) (ls ++ ms))
    (h : literalsOf f = .ok ls) : P f ls := by
  induction f generalizing ls with
  | atom a =>
      cases h
      exact atom a
  | not f _ =>
      cases f with
      | atom a =>
          cases h
          exact not a
      | not | binary | quant => cases h
  | binary c f g ihf ihg =>
      cases c with
      | or =>
          simp only [literalsOf, except_bind_eq_ok] at h
          obtain ⟨ls, hls, ms, hms, h⟩ := h
          cases h
          exact or (ihf hls) (ihg hms)
      | and | implies | iff => cases h
  | quant => cases h

/-- Induction over successful extractions of clauses. -/
theorem of_cnf_induction {P : Formula → List Clause → Prop}
    (clause : ∀ {f ls}, literalsOf f = .ok ls → P f [⟨ls⟩])
    (and : ∀ {f g cs ds}, P f cs → P g ds → P (.and f g) (cs ++ ds))
    (h : ofCnf f = .ok cs) : P f cs := by
  fun_induction ofCnf f generalizing cs with
  | case1 f g ihf ihg =>
      simp only [except_bind_eq_ok] at h
      obtain ⟨cs, hcs, ds, hds, h⟩ := h
      cases h
      exact and (ihf hcs) (ihg hds)
  | case2 f =>
      simp only [except_bind_eq_ok] at h
      obtain ⟨ls, hls, h⟩ := h
      cases h
      exact clause hls

/-- Every disjunction of literals has its literals taken out. -/
theorem exists_literals_of (h : f.isClause = true) : ∃ ls, literalsOf f = .ok ls := by
  induction f with
  | atom a => exact ⟨_, rfl⟩
  | not f _ =>
      cases f with
      | atom a => exact ⟨_, rfl⟩
      | not | binary | quant => cases h
  | binary c f g ihf ihg =>
      cases c with
      | or =>
          obtain ⟨hf, hg⟩ := Bool.and_eq_true_iff.1 h
          obtain ⟨ls, hls⟩ := ihf hf
          obtain ⟨ms, hms⟩ := ihg hg
          exact ⟨ls ++ ms, by simp only [literalsOf, hls, hms]; rfl⟩
      | and | implies | iff => cases h
  | quant => cases h

/-- Every conjunctive normal form has its clauses taken out. -/
theorem exists_of_cnf (h : f.isCnf = true) : ∃ cs, ofCnf f = .ok cs := by
  fun_induction ofCnf f with
  | case1 f g ihf ihg =>
      obtain ⟨hf, hg⟩ := Bool.and_eq_true_iff.1 h
      obtain ⟨cs, hcs⟩ := ihf hf
      obtain ⟨ds, hds⟩ := ihg hg
      exact ⟨cs ++ ds, by simp only [hcs, hds]; rfl⟩
  | case2 f hne =>
      rw [Formula.isCnf] at h
      · obtain ⟨ls, hls⟩ := exists_literals_of h
        exact ⟨[⟨ls⟩], by simp only [hls]; rfl⟩
      · exact hne

variable {U : Type u} {M : Interpretation U} {s : Assignment U}

theorem symbols_subset_of_mem_vars {c : Clause} {v : Variable} (hv : v ∈ c.vars) :
    v.symbols ⊆ c.symbols := by
  obtain ⟨l, hl, hv⟩ := List.mem_flatMap.1 hv
  exact fun σ hσ => List.mem_flatMap.2 ⟨l, hl, Atom.symbols_subset_of_mem_vars hv hσ⟩

/-- A disjunction of literals is true when one of its literals is. -/
theorem holds_literals_of (h : literalsOf f = .ok ls) :
    (∃ l ∈ ls, M.HoldsLiteral s l) ↔ M.Holds s f := by
  refine literals_of_induction (P := fun f ls => (∃ l ∈ ls, M.HoldsLiteral s l) ↔ M.Holds s f)
    ?atom ?not ?or h
  case atom | not => exact fun a => by simp [Interpretation.HoldsLiteral, Interpretation.Holds]
  case or =>
    intro f g ls ms hf hg
    simp only [List.mem_append, or_and_right, exists_or, hf, hg]
    rfl

/-- The clauses of a conjunctive normal form are all true when the formula is. -/
theorem holds_of_cnf (h : ofCnf f = .ok cs) :
    (∀ c ∈ cs, M.HoldsClause s c) ↔ M.Holds s f := by
  refine of_cnf_induction (P := fun f cs => (∀ c ∈ cs, M.HoldsClause s c) ↔ M.Holds s f)
    ?clause ?and h
  case clause =>
    intro f ls hls
    rw [List.forall_mem_singleton]
    exact holds_literals_of hls
  case and =>
    intro f g cs ds hf hg
    rw [List.forall_mem_append, hf, hg]
    rfl

end Clause

end Clausal
