import Clausal.Proofs.Apart
import Clausal.Proofs.Lockstep

/-!
# Standardizing apart in two runs

The decision to rename a binder depends on the names seen, and of these only on the ones that stand
in the formula: a fresh name is not among them, whatever it is (`BindsApart.lockstep`). So two walks
down one formula rename the same binders, and `standardize_apart_lockstep` says that the results are
the same but for the names that each run has added.
-/

namespace Clausal

open Registry (GrowAlike)

/-- Scopes that resolve a variable alike do so inside a quantifier. -/
theorem Scope.resolve_enter_rename {ρ : String → String} {scope₁ scope₂ : Scope} {v : Variable}
    {vs ws : List Variable} (hlength : ws.length = vs.length)
    (hout : (scope₁.resolve v).rename ρ = scope₂.resolve v) :
    ((scope₁.enter vs ws).resolve v).rename ρ =
      (scope₂.enter vs (ws.map (Variable.rename ρ))).resolve v := by
  induction vs generalizing scope₁ scope₂ ws with
  | nil =>
      cases List.length_eq_zero_iff.1 hlength
      exact hout
  | cons x vs ih =>
      cases ws with
      | nil => cases hlength
      | cons w ws =>
          rw [enter_cons, List.map_cons, enter_cons]
          refine ih (Nat.succ.inj hlength) ?_
          by_cases hname : v.name = x.name
          · rw [resolve_cons_of_eq hname, resolve_cons_of_eq hname]
          · rw [resolve_cons_of_ne hname, resolve_cons_of_ne hname, hout]

section Apart

variable {w : Starts} {v x₁ x₂ : Variable} {vs ws₁ ws₂ : List Variable} {f g₁ g₂ : Formula}
  {scope₁ scope₂ : Scope} {st₁ st₂ st₁' st₂' : NamingState}

/-- Both runs have seen the same common names. -/
def Starts.SeenAlike (w : Starts) (st₁ st₂ : NamingState) : Prop :=
  ∀ σ ∈ w.symbols, σ.name ∈ st₁.1 ↔ σ.name ∈ st₂.1

/-- A common name is in use in both runs. -/
theorem Starts.common_in_use {r₁ r₂ : Registry} (hreach : w.Reach r₁ r₂) {σ : Symbol}
    (hσ : σ ∈ w.symbols) : σ.name ∈ r₁.termNames ∧ σ.name ∈ r₂.termNames :=
  ⟨hreach.left.term_names_subset (Registry.name_mem_of_mem_symbols (w.left_holds hσ)),
    hreach.right.term_names_subset (Registry.name_mem_of_mem_symbols (w.right_holds hσ))⟩

/-- Whether a binder takes a fresh name depends on common names only. -/
theorem BindsApart.lockstep (h₁ : BindsApart v st₁ x₁ st₁') (h₂ : BindsApart v st₂ x₂ st₂')
    (hreach : w.Reach st₁.2 st₂.2) (hv : v.symbols ⊆ w.symbols) (hseen : w.SeenAlike st₁ st₂) :
    GrowAlike st₁.2 st₂.2 st₁'.2 st₂'.2 ∧ w.SeenAlike st₁' st₂' ∧
      w.Mates Variable.rename x₁ x₂ st₁'.2 st₂'.2 := by
  have hname := hseen (.var v.name) (hv (List.mem_cons_self ..))
  cases h₁ with
  | keep hunseen =>
      cases h₂ with
      | keep =>
          refine ⟨.refl _ _, ?_, fun ρ hρ => Variable.rename_eq hρ.fixes hv⟩
          intro σ hσ
          simp only [List.mem_cons, hseen σ hσ]
      | fresh _ hseen₂ => exact absurd (hname.2 hseen₂) hunseen
  | fresh name₁ hseen₁ hadds₁ =>
      cases h₂ with
      | keep hunseen => exact absurd (hname.1 hseen₁) hunseen
      | fresh name₂ _ hadds₂ =>
          have halike := hadds₁.grow_alike hadds₂ rfl rfl rfl
          refine ⟨halike, ?_, ?_⟩
          · intro σ hσ
            -- a fresh name is no common one
            obtain ⟨hused₁, hused₂⟩ := Starts.common_in_use hreach hσ
            have hne₁ : σ.name ≠ name₁ := fun heq => hadds₁.fresh_var (heq ▸ hused₁)
            have hne₂ : σ.name ≠ name₂ := fun heq => hadds₂.fresh_var (heq ▸ hused₂)
            simp only [List.mem_cons, hne₁, hne₂, false_or, hseen σ hσ]
          · intro ρ hρ
            have hcarried := (hρ.split hreach halike).2.vars
            rw [hadds₁.vars, hadds₂.vars] at hcarried
            have hnew : ρ name₁ = name₂ := (List.cons.inj hcarried).1
            rw [Variable.rename_renamed hρ.fixes hv, hnew]

theorem BindsAllApart.lockstep (h₁ : BindsAllApart vs st₁ ws₁ st₁')
    (h₂ : BindsAllApart vs st₂ ws₂ st₂') (hreach : w.Reach st₁.2 st₂.2)
    (hvs : ∀ v ∈ vs, v.symbols ⊆ w.symbols) (hseen : w.SeenAlike st₁ st₂) :
    GrowAlike st₁.2 st₂.2 st₁'.2 st₂'.2 ∧ w.SeenAlike st₁' st₂' ∧
      w.Mates Starts.renameVars ws₁ ws₂ st₁'.2 st₂'.2 := by
  induction h₁ generalizing st₂ ws₂ st₂' with
  | nil =>
      cases h₂
      exact ⟨.refl _ _, hseen, fun _ _ => rfl⟩
  | cons hfirst₁ hrest₁ ih =>
      cases h₂ with
      | cons hfirst₂ hrest₂ =>
          obtain ⟨hv, hvs⟩ := List.forall_mem_cons.1 hvs
          obtain ⟨hfirst, hseen, hmates⟩ := hfirst₁.lockstep hfirst₂ hreach hv hseen
          have hreach := hreach.trans hfirst
          obtain ⟨hrest, hseen, hmates'⟩ := ih hrest₂ hreach hvs hseen
          refine ⟨hfirst.trans hrest, hseen, ?_⟩
          intro ρ hρ
          exact congrArg₂ List.cons (hmates.later hreach hrest ρ hρ) (hmates' ρ hρ)

/-- The scopes resolve a variable of common symbols to variables that match. -/
def Starts.ScopesMate (w : Starts) (scope₁ scope₂ : Scope) (r₁ r₂ : Registry) : Prop :=
  ∀ v : Variable, v.symbols ⊆ w.symbols →
    w.Mates Variable.rename (scope₁.resolve v) (scope₂.resolve v) r₁ r₂

theorem Starts.ScopesMate.later {r₁ r₂ m₁ m₂ : Registry} (h : w.ScopesMate scope₁ scope₂ r₁ r₂)
    (hreach : w.Reach r₁ r₂) (halike : GrowAlike r₁ r₂ m₁ m₂) :
    w.ScopesMate scope₁ scope₂ m₁ m₂ :=
  fun v hv => (h v hv).later hreach halike

/-- Inside a quantifier whose variables became ones that match, the scopes do so again. -/
theorem Starts.ScopesMate.enter {r₁ r₂ : Registry} (h : w.ScopesMate scope₁ scope₂ r₁ r₂)
    (hlength : ws₁.length = vs.length) (hmates : w.Mates Starts.renameVars ws₁ ws₂ r₁ r₂) :
    w.ScopesMate (scope₁.enter vs ws₁) (scope₂.enter vs ws₂) r₁ r₂ := by
  intro v hv ρ hρ
  have hws : ws₁.map (Variable.rename ρ) = ws₂ := hmates ρ hρ
  rw [← hws]
  exact Scope.resolve_enter_rename hlength (h v hv ρ hρ)

/-- Two walks down one formula take the same decisions, and their results match. -/
theorem RenamesApart.lockstep (h₁ : RenamesApart scope₁ f st₁ g₁ st₁')
    (h₂ : RenamesApart scope₂ f st₂ g₂ st₂') (hreach : w.Reach st₁.2 st₂.2)
    (hf : f.symbols ⊆ w.symbols) (hseen : w.SeenAlike st₁ st₂)
    (hscope : w.ScopesMate scope₁ scope₂ st₁.2 st₂.2) :
    GrowAlike st₁.2 st₂.2 st₁'.2 st₂'.2 ∧ w.SeenAlike st₁' st₂' ∧
      w.Mates Formula.rename g₁ g₂ st₁'.2 st₂'.2 := by
  induction h₁ generalizing scope₂ st₂ g₂ st₂' with
  | atom scope st a =>
      cases h₂
      refine ⟨.refl _ _, hseen, ?_⟩
      intro ρ hρ
      have hresolved : ∀ v ∈ a.vars,
          (Term.var (scope.resolve v)).rename ρ = .var (scope₂.resolve (v.rename ρ)) := by
        intro v hv
        have hv : v.symbols ⊆ w.symbols :=
          List.Subset.trans (Atom.symbols_subset_of_mem_vars hv) hf
        rw [Variable.rename_eq hρ.fixes hv, Term.rename, hscope v hv ρ hρ]
      have hatom := Atom.rename_map_bind (k := fun v => .var (scope₂.resolve v)) hresolved
      rw [Atom.rename_eq hρ.fixes hf] at hatom
      exact congrArg Formula.atom hatom
  | not _ ih =>
      cases h₂ with
      | not h₂ =>
          obtain ⟨halike, hseen, hmates⟩ := ih h₂ hreach hf hseen hscope
          exact ⟨halike, hseen, fun ρ hρ => congrArg Formula.not (hmates ρ hρ)⟩
  | binary _ _ ihf ihg =>
      cases h₂ with
      | binary hf₂ hg₂ =>
          obtain ⟨hf, hg⟩ := List.append_subset.1 hf
          obtain ⟨hfirst, hseen, hmates⟩ := ihf hf₂ hreach hf hseen hscope
          have hreach' := hreach.trans hfirst
          obtain ⟨hsecond, hseen, hmates'⟩ :=
            ihg hg₂ hreach' hg hseen (hscope.later hreach hfirst)
          refine ⟨hfirst.trans hsecond, hseen, ?_⟩
          intro ρ hρ
          exact congrArg₂ (Formula.binary _) (hmates.later hreach' hsecond ρ hρ) (hmates' ρ hρ)
  | quant hbind₁ _ ih =>
      cases h₂ with
      | quant hbind₂ h₂ =>
          obtain ⟨hvs, hf⟩ := List.append_subset.1 hf
          obtain ⟨hfirst, hseen, hmates⟩ :=
            hbind₁.lockstep hbind₂ hreach (flat_map_subset_iff.1 hvs) hseen
          have hreach' := hreach.trans hfirst
          have hinside :=
            (hscope.later hreach hfirst).enter hbind₁.copies.length_eq.symm hmates
          obtain ⟨hbody, hseen, hmates'⟩ := ih h₂ hreach' hf hseen hinside
          refine ⟨hfirst.trans hbody, hseen, ?_⟩
          intro ρ hρ
          exact congrArg₂ (Formula.quant _) (hmates.later hreach' hbody ρ hρ) (hmates' ρ hρ)

/-- Standardizing a formula apart in both runs gives formulas that match. -/
theorem standardize_apart_lockstep {r₁ r₂ m₁ m₂ : Registry} (hreach : w.Reach r₁ r₂)
    (hf : f.symbols ⊆ w.symbols) (h₁ : (f.standardizeApart.run r₁).value = (g₁, m₁))
    (h₂ : (f.standardizeApart.run r₂).value = (g₂, m₂)) :
    GrowAlike r₁ r₂ m₁ m₂ ∧ w.Mates Formula.rename g₁ g₂ m₁ m₂ := by
  obtain ⟨seen₁, hwalk₁⟩ := renames_apart_of_run h₁
  obtain ⟨seen₂, hwalk₂⟩ := renames_apart_of_run h₂
  obtain ⟨halike, -, hmates⟩ := hwalk₁.lockstep hwalk₂ hreach hf (fun _ _ => Iff.rfl)
    fun v hv ρ hρ => Variable.rename_eq hρ.fixes hv
  exact ⟨halike, hmates⟩

end Apart

end Clausal
