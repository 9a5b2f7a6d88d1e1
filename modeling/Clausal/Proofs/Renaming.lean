import Clausal.Proofs.Distribute
import Clausal.Proofs.Skolem.Pending
import Clausal.Proofs.Symbols

/-!
# Renaming of symbols

A renaming gives every name another one, whatever kind of symbol bears it. What compares no names
commutes with it. What does, replacement of variables foremost, commutes with a renaming that
`Separates` the symbols at hand: symbols of different names keep different names
(`Pending.rename_apply`, `Pending.rename_below`).
-/

namespace Clausal

/-- The constant under its new name. -/
def Constant.rename (ρ : String → String) (c : Constant) : Constant := ⟨ρ c.name⟩

/-- The variable and the constants of its domain under their new names. What the variable was
defined as stays. -/
def Variable.rename (ρ : String → String) (v : Variable) : Variable :=
  { v with name := ρ v.name, domain := v.domain.map (List.map (Constant.rename ρ)) }

namespace Term

mutual

/-- The term with the new names of its symbols. -/
def rename (ρ : String → String) : Term → Term
  | const c => const (c.rename ρ)
  | var v => var (v.rename ρ)
  | skolem name args => skolem (ρ name) (renameAll ρ args)

/-- Several terms with the new names of their symbols. -/
def renameAll (ρ : String → String) : List Term → List Term
  | [] => []
  | t :: ts => t.rename ρ :: renameAll ρ ts

end

@[simp] theorem rename_all_eq {ρ : String → String} {ts : List Term} :
    renameAll ρ ts = ts.map (rename ρ) := by
  induction ts with
  | nil => rfl
  | cons t ts ih => simp [renameAll, ih]

end Term

/-- The atom with the new names of its symbols. -/
def Atom.rename (ρ : String → String) (a : Atom) : Atom := a.mapTerms (Term.rename ρ)

/-- The formula with the new names of its symbols. -/
def Formula.rename (ρ : String → String) : Formula → Formula
  | .atom a => .atom (a.rename ρ)
  | .not f => .not (f.rename ρ)
  | .binary c f g => .binary c (f.rename ρ) (g.rename ρ)
  | .quant q vs f => .quant q (vs.map (Variable.rename ρ)) (f.rename ρ)

/-- The replacements with the new names of their symbols. -/
def Pending.rename (ρ : String → String) (p : Pending) : Pending :=
  p.map fun xb => (xb.1.rename ρ, xb.2.rename ρ)

/-- The symbols keep their names. -/
def Fixes (ρ : String → String) (S : List Symbol) : Prop := ∀ σ ∈ S, ρ σ.name = σ.name

/-- Symbols of different names get different names. -/
def Separates (ρ : String → String) (S : List Symbol) : Prop :=
  ∀ σ ∈ S, ∀ τ ∈ S, ρ σ.name = ρ τ.name → σ.name = τ.name

variable {ρ : String → String} {S : List Symbol}

theorem Separates.eq_iff (h : Separates ρ S) {σ τ : Symbol} (hσ : σ ∈ S) (hτ : τ ∈ S) :
    ρ σ.name = ρ τ.name ↔ σ.name = τ.name :=
  ⟨h σ hσ τ hτ, fun hname => congrArg ρ hname⟩

/-- A renaming that keeps some symbols and gives the others different names, none of them a name
that it keeps, separates them all. -/
theorem Fixes.separates {T : List Symbol} (hfixes : Fixes ρ S) (new : List String)
    (hnodup : (new.map ρ).Nodup) (hfresh : ∀ σ ∈ S, σ.name ∉ new.map ρ)
    (hT : ∀ τ ∈ T, τ ∈ S ∨ τ.name ∈ new) : Separates ρ T := by
  intro σ hσ τ hτ hname
  rcases hT σ hσ with hσ | hσ <;> rcases hT τ hτ with hτ | hτ
  · rwa [hfixes σ hσ, hfixes τ hτ] at hname
  · rw [hfixes σ hσ] at hname
    exact absurd (hname ▸ List.mem_map_of_mem hτ) (hfresh σ hσ)
  · rw [hfixes τ hτ] at hname
    exact absurd (hname ▸ List.mem_map_of_mem hσ) (hfresh τ hτ)
  · exact List.inj_on_of_nodup_map hnodup hσ hτ hname

/-- The renaming that takes each of the names to the one in its place among the others. -/
def matchUp (names names' : List String) (name : String) : String :=
  names'[names.idxOf name]?.getD name

theorem map_match_up {names names' : List String} (hnodup : names.Nodup)
    (hlength : names.length = names'.length) : names.map (matchUp names names') = names' := by
  refine List.ext_getElem (by simp [hlength]) ?_
  intro i hi hi'
  have hi : i < names.length := by simpa using hi
  simp [matchUp, hnodup.idxOf_getElem i hi, hi']

/-- What bears none of the names keeps its own. -/
theorem fixes_match_up {names names' : List String} (hlength : names.length = names'.length)
    (hS : ∀ σ ∈ S, σ.name ∉ names) : Fixes (matchUp names names') S := by
  intro σ hσ
  rw [matchUp, List.idxOf_of_notMem (hS σ hσ), hlength, List.getElem?_length, Option.getD_none]

/-! ## Variables -/

namespace Variable

variable {v w : Variable} {vs : List Variable}

@[simp] theorem is_closed_world_rename : (v.rename ρ).isClosedWorld = v.isClosedWorld := by
  simp [isClosedWorld, rename]

/-- A variable stays the same when its symbols keep their names. -/
theorem rename_eq (h : Fixes ρ S) (hv : v.symbols ⊆ S) : v.rename ρ = v := by
  obtain ⟨name, domain, origin⟩ := v
  obtain ⟨hvar, hdomain⟩ := List.cons_subset.1 hv
  have hname : ρ name = name := h _ hvar
  cases domain with
  | none => rw [rename, Option.map_none, hname]
  | some cs =>
      have hconstants : cs.map (Constant.rename ρ) = cs := by
        refine (List.map_congr_left fun c hc => ?_).trans (List.map_id cs)
        have hc : ρ c.name = c.name := h (.const c.name) (hdomain (List.mem_map.2 ⟨c, hc, rfl⟩))
        rw [Constant.rename, hc, id]
      rw [rename, Option.map_some, hname, hconstants]

/-- A renamed copy is a copy of the renamed variable. -/
theorem rename_renamed {name : String} (h : Fixes ρ S) (hv : v.symbols ⊆ S) :
    (v.renamed name).rename ρ = v.renamed (ρ name) := by
  have hdomain := congrArg Variable.domain (rename_eq h hv)
  simp only [rename, renamed, mk.injEq, true_and, and_true] at hdomain ⊢
  exact hdomain

theorem same_rename (h : Separates ρ S) (hv : v.symbols ⊆ S) (hw : w.symbols ⊆ S) :
    (v.rename ρ).same (w.rename ρ) = v.same w := by
  rw [Bool.eq_iff_iff, same_iff, same_iff]
  exact h.eq_iff (hv (List.mem_cons_self ..)) (hw (List.mem_cons_self ..))

theorem is_among_rename (h : Separates ρ S) (hv : v.symbols ⊆ S)
    (hvs : ∀ w ∈ vs, w.symbols ⊆ S) :
    (v.rename ρ).isAmong (vs.map (Variable.rename ρ)) = v.isAmong vs := by
  induction vs with
  | nil => rfl
  | cons w vs ih =>
      obtain ⟨hw, hvs⟩ := List.forall_mem_cons.1 hvs
      have hrest := ih hvs
      simp only [isAmong] at hrest ⊢
      rw [List.map_cons, List.any_cons, List.any_cons, same_rename h hv hw, hrest]

end Variable

/-! ## Terms and atoms -/

theorem Term.rename_eq {t : Term} (h : Fixes ρ S) (ht : t.symbols ⊆ S) : t.rename ρ = t := by
  induction t using Term.induction with
  | hconst c =>
      have hname : ρ c.name = c.name := h _ (List.cons_subset.1 ht).1
      rw [rename, Constant.rename, hname]
  | hvar v => exact congrArg var (Variable.rename_eq h ht)
  | hskolem name args ih =>
      simp only [symbols, symbols_all_eq, List.cons_subset, flat_map_subset_iff] at ht
      have hname : ρ name = name := h _ ht.1
      have hargs : args.map (rename ρ) = args :=
        (List.map_congr_left fun t hmem => ih t hmem (ht.2 t hmem)).trans (List.map_id args)
      rw [rename, rename_all_eq, hname, hargs]

theorem Atom.rename_eq {a : Atom} (h : Fixes ρ S) (ha : a.symbols ⊆ S) : a.rename ρ = a := by
  have hterms : a.terms.map (Term.rename ρ) = a.terms :=
    (List.map_congr_left fun t ht => Term.rename_eq h (flat_map_subset_iff.1 ha t ht)).trans
      (List.map_id a.terms)
  rw [rename, mapTerms, hterms]

section Bind

variable {h k : Variable → Term} {t : Term} {a : Atom} {x : Variable} {b : Term}

/-- Putting terms in place of variables, before or after the renaming. -/
theorem Term.rename_bind (hvars : ∀ v ∈ t.vars, (h v).rename ρ = k (v.rename ρ)) :
    (t.bind h).rename ρ = (t.rename ρ).bind k := by
  induction t using Term.induction with
  | hconst => rfl
  | hvar v => exact hvars v (List.mem_singleton.2 rfl)
  | hskolem name args ih =>
      simp only [vars, vars_all_eq, List.mem_flatMap] at hvars
      simp only [bind, bind_all_eq, rename, rename_all_eq, List.map_map, skolem.injEq, true_and]
      exact List.map_congr_left fun t ht => ih t ht fun v hv => hvars v ⟨t, ht, hv⟩

theorem Atom.rename_map_bind (hvars : ∀ v ∈ a.vars, (h v).rename ρ = k (v.rename ρ)) :
    (a.mapTerms (Term.bind h)).rename ρ = (a.rename ρ).mapTerms (Term.bind k) := by
  simp only [vars, List.mem_flatMap] at hvars
  simp only [rename, mapTerms, List.map_map, Atom.mk.injEq, true_and]
  exact List.map_congr_left fun t ht => Term.rename_bind fun v hv => hvars v ⟨t, ht, hv⟩

/-- Replacing a variable, before or after a renaming that tells it from the others. -/
theorem Atom.rename_subst (hsep : Separates ρ S) (ha : a.symbols ⊆ S) (hx : x.symbols ⊆ S) :
    (a.subst x b).rename ρ = (a.rename ρ).subst (x.rename ρ) (b.rename ρ) := by
  apply Atom.rename_map_bind
  intro v hv
  have hv : v.symbols ⊆ S := List.Subset.trans (Atom.symbols_subset_of_mem_vars hv) ha
  rw [Variable.same_rename hsep hv hx]
  split <;> rfl

end Bind

/-! ## Pending replacements -/

namespace Pending

variable {p : Pending} {a : Atom} {vs : List Variable}

theorem rename_append {q : Pending} :
    Pending.rename ρ (p ++ q) = p.rename ρ ++ q.rename ρ := List.map_append

/-- Carrying out replacements, before or after a renaming that separates all their symbols. -/
theorem rename_apply (hsep : Separates ρ S) (ha : a.symbols ⊆ S) (hp : p.symbols ⊆ S)
    (hkeys : ∀ xb ∈ p, xb.1.symbols ⊆ S) :
    (p.apply a).rename ρ = (p.rename ρ).apply (a.rename ρ) := by
  induction p generalizing a with
  | nil => rfl
  | cons xb p ih =>
      obtain ⟨hx, hkeys⟩ := List.forall_mem_cons.1 hkeys
      obtain ⟨hb, hp⟩ := List.append_subset.1 hp
      have hsubst : (a.subst xb.1 xb.2).symbols ⊆ S := by
        have hone : Pending.symbols [xb] ⊆ S := List.append_subset.2 ⟨hb, List.nil_subset _⟩
        exact symbols_apply_subset (p := [xb]) ha hone
      have hrest := ih hsubst hp hkeys
      rw [Atom.rename_subst hsep ha hx] at hrest
      exact hrest

/-- What a quantifier holds back, before or after the renaming. -/
theorem rename_below (hsep : Separates ρ S) (hkeys : ∀ xb ∈ p, xb.1.symbols ⊆ S)
    (hvs : ∀ v ∈ vs, v.symbols ⊆ S) :
    (p.below vs).rename ρ = (p.rename ρ).below (vs.map (Variable.rename ρ)) := by
  rw [below, below, rename, rename, List.filter_map]
  congr 1
  apply List.filter_congr
  intro xb hxb
  have hamong := Variable.is_among_rename hsep (hkeys xb hxb) hvs
  simp [hamong]

end Pending

/-! ## Expansion -/

/-- A closed-world variable and its domain under their new names. -/
def renameDomain (ρ : String → String) (d : DomainOf) : DomainOf :=
  (d.1.rename ρ, d.2.map (Constant.rename ρ))

theorem closed_world_rename {vs : List Variable} :
    closedWorld (vs.map (Variable.rename ρ)) = (closedWorld vs).map (renameDomain ρ) := by
  rw [closedWorld, closedWorld, List.filterMap_map, List.map_filterMap]
  apply List.filterMap_congr
  intro v _
  simp [Variable.rename, renameDomain, Function.comp_def]

/-- Choosing constants, before or after the renaming. -/
theorem choices_rename {ds : List DomainOf} :
    choices (ds.map (renameDomain ρ)) = (choices ds).map (Pending.rename ρ) := by
  induction ds with
  | nil => rfl
  | cons d ds ih =>
      simp only [List.map_cons, choices, renameDomain, ih, List.map_flatMap, List.flatMap_map,
        List.map_map]
      rfl

/-! ## Formulas -/

namespace Formula

variable {f g : Formula}

theorem binders_rename : (f.rename ρ).binders = f.binders.map (Variable.rename ρ) := by
  induction f with
  | atom => rfl
  | not _ ih => exact ih
  | binary _ _ _ ihf ihg => simp only [rename, binders, ihf, ihg, List.map_append]
  | quant _ _ _ ih => simp only [rename, binders, ih, List.map_append]

theorem disjunction_rename {fs : List Formula} :
    disjunction (fs.map (rename ρ)) = (disjunction fs).map (rename ρ) := by
  cases fs with
  | nil => rfl
  | cons f fs =>
      refine congrArg some ?_
      induction fs generalizing f with
      | nil => rfl
      | cons g fs ih => exact ih (or f g)

theorem drop_rename : (f.rename ρ).dropUniversals = f.dropUniversals.rename ρ := by
  induction f with
  | atom => rfl
  | not _ ih => exact congrArg not ih
  | binary c _ _ ihf ihg => rw [rename, dropUniversals, ihf, ihg, dropUniversals, rename]
  | quant q vs _ ih =>
      cases q with
      | all => exact ih
      | ex => exact congrArg (ex _) ih

theorem or_clauses_rename :
    (orClauses f g).rename ρ = orClauses (f.rename ρ) (g.rename ρ) := by
  induction g with
  | atom | not | quant => rfl
  | binary c g h ihg ihh =>
      cases c with
      | and => simp only [orClauses, rename, ihg, ihh]
      | or | implies | iff => rfl

theorem or_cnf_rename : (orCnf f g).rename ρ = orCnf (f.rename ρ) (g.rename ρ) := by
  induction f with
  | atom | not | quant => exact or_clauses_rename
  | binary c f h ihf ihh =>
      cases c with
      | and => simp only [orCnf, rename, ihf, ihh]
      | or | implies | iff => exact or_clauses_rename

/-- Distribution, before or after the renaming. -/
theorem distribute_rename (h : f.distribute = .ok g) :
    (f.rename ρ).distribute = .ok (g.rename ρ) := by
  refine distribute_induction (P := fun f g => (f.rename ρ).distribute = .ok (g.rename ρ))
    ?atom ?not ?and ?or h
  case atom | not => exact fun _ => rfl
  case and =>
    intro f f' g g' hf hg
    simp only [rename, distribute, hf, hg]
    rfl
  case or =>
    intro f f' g g' hf hg
    simp only [rename, distribute, hf, hg, or_cnf_rename]
    rfl

end Formula

end Clausal
