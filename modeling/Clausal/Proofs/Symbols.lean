import Mathlib.Data.List.Forall2
import Clausal.Proofs.Binding
import Clausal.Proofs.Growth

/-!
# Symbols of formulas and registries

The constants, variables and Skolem functions that a formula mentions, domains included, and those
that a registry holds. A symbol is known by its kind and its name. `Formula.Registered f r` says
that the registry `r` holds every symbol of `f`; a registry that grows goes on doing so.
-/

namespace Clausal

/-- What is listed for all elements lies in `ys` when what is listed for each one does. -/
theorem flat_map_subset_iff {α β : Type} {f : α → List β} {xs : List α} {ys : List β} :
    xs.flatMap f ⊆ ys ↔ ∀ x ∈ xs, f x ⊆ ys := by
  constructor
  · exact fun h x hx y hy => h (List.mem_flatMap.2 ⟨x, hx, hy⟩)
  · intro h y hy
    obtain ⟨x, hx, hy⟩ := List.mem_flatMap.1 hy
    exact h x hx hy

/-- Each member of the first list has a partner in the second one. -/
theorem exists_right_of_forall₂ {α β : Type} {R : α → β → Prop} {xs : List α} {ys : List β}
    (h : List.Forall₂ R xs ys) {x : α} (hx : x ∈ xs) : ∃ y ∈ ys, R x y := by
  induction h with
  | nil => cases hx
  | cons hfirst _ ih =>
      rcases List.mem_cons.1 hx with rfl | hx
      · exact ⟨_, List.mem_cons_self .., hfirst⟩
      · obtain ⟨y, hy, hxy⟩ := ih hx
        exact ⟨y, List.mem_cons_of_mem _ hy, hxy⟩

/-- Each member of the second list has a partner in the first one. -/
theorem exists_left_of_forall₂ {α β : Type} {R : α → β → Prop} {xs : List α} {ys : List β}
    (h : List.Forall₂ R xs ys) {y : β} (hy : y ∈ ys) : ∃ x ∈ xs, R x y :=
  exists_right_of_forall₂ h.flip hy

/-- A constant, a variable or a Skolem function. -/
inductive Symbol where
  | const (name : String)
  | var (name : String)
  | skolem (name : String)
deriving DecidableEq

/-- The name of a symbol. -/
def Symbol.name : Symbol → String
  | const name | var name | skolem name => name

/-- A variable and the constants of its domain. -/
def Variable.symbols (v : Variable) : List Symbol :=
  .var v.name :: (v.domain.getD []).map fun c => .const c.name

/-- The variable reduced to its name. -/
def Variable.plain (v : Variable) : Variable := { name := v.name }

namespace Term

mutual

/-- The symbols of a term. -/
def symbols : Term → List Symbol
  | const c => [.const c.name]
  | var v => v.symbols
  | skolem name args => .skolem name :: symbolsAll args

/-- The symbols of several terms. -/
def symbolsAll : List Term → List Symbol
  | [] => []
  | t :: ts => t.symbols ++ symbolsAll ts

end

@[simp] theorem symbols_all_eq {ts : List Term} : symbolsAll ts = ts.flatMap symbols := by
  induction ts with
  | nil => rfl
  | cons t ts ih => simp [symbolsAll, ih]

/-- Induction over terms: a property that passes from the arguments to a Skolem term. -/
theorem induction {P : Term → Prop} (hconst : ∀ c, P (const c)) (hvar : ∀ v, P (var v))
    (hskolem : ∀ name args, (∀ t ∈ args, P t) → P (skolem name args)) : ∀ t, P t
  | const c => hconst c
  | var v => hvar v
  | skolem name args => hskolem name args fun t _ => induction hconst hvar hskolem t

variable {h : Variable → Term} {t : Term}

/-- Putting terms in place of variables leaves the variables of these terms. -/
theorem vars_bind : (t.bind h).vars = t.vars.flatMap fun v => (h v).vars := by
  induction t using Term.induction with
  | hconst => rfl
  | hvar => simp [bind, vars]
  | hskolem name args ih =>
      simp only [bind, vars, bind_all_eq, vars_all_eq, List.flatMap_map, List.flatMap_assoc]
      exact List.flatMap_congr ih

/-- Putting each variable in its own place changes nothing. -/
theorem bind_eq_self (hvars : ∀ v ∈ t.vars, h v = var v) : t.bind h = t := by
  induction t using Term.induction with
  | hconst => rfl
  | hvar v => exact hvars v (List.mem_singleton.2 rfl)
  | hskolem name args ih =>
      simp only [vars, vars_all_eq, List.mem_flatMap] at hvars
      have hargs : args.map (bind h) = args :=
        (List.map_congr_left fun t ht => ih t ht fun v hv => hvars v ⟨t, ht, hv⟩).trans
          (List.map_id args)
      rw [bind, bind_all_eq, hargs]

/-- Putting terms in place twice is putting in place what the first terms become. -/
theorem bind_bind {k : Variable → Term} : (t.bind h).bind k = t.bind fun v => (h v).bind k := by
  induction t using Term.induction with
  | hconst | hvar => rfl
  | hskolem name args ih =>
      simp only [bind, bind_all_eq, List.map_map]
      exact congrArg (skolem name) (List.map_congr_left ih)

/-- Putting terms in place of variables brings in no symbols but those of these terms. -/
theorem symbols_bind_subset {S : List Symbol} (hterm : t.symbols ⊆ S)
    (hvars : ∀ v ∈ t.vars, (h v).symbols ⊆ S) : (t.bind h).symbols ⊆ S := by
  induction t using Term.induction with
  | hconst => exact hterm
  | hvar v => exact hvars v (List.mem_singleton.2 rfl)
  | hskolem name args ih =>
      simp only [symbols, symbols_all_eq, List.cons_subset, flat_map_subset_iff] at hterm
      simp only [vars, vars_all_eq, List.mem_flatMap] at hvars
      simp only [bind, bind_all_eq, symbols, symbols_all_eq, List.cons_subset, flat_map_subset_iff,
        List.mem_map]
      refine ⟨hterm.1, ?_⟩
      rintro _ ⟨t, ht, rfl⟩
      exact ih t ht (hterm.2 t ht) fun v hv => hvars v ⟨t, ht, hv⟩

/-- The symbols of a variable are among those of a term that it occurs in. -/
theorem symbols_subset_of_mem_vars {v : Variable} (hv : v ∈ t.vars) : v.symbols ⊆ t.symbols := by
  induction t using Term.induction with
  | hconst => cases hv
  | hvar w => exact List.mem_singleton.1 hv ▸ List.Subset.refl _
  | hskolem name args ih =>
      simp only [vars, vars_all_eq, List.mem_flatMap] at hv
      obtain ⟨t, ht, hv⟩ := hv
      rw [symbols, symbols_all_eq]
      exact fun σ hσ => List.mem_cons_of_mem _ (List.mem_flatMap.2 ⟨t, ht, ih t ht hv hσ⟩)

/-- The term with its variables reduced to their names. -/
def plain : Term → Term := bind fun v => .var v.plain

theorem plain_skolem {name : String} {ts : List Term} :
    (skolem name ts).plain = skolem name (ts.map plain) := by
  rw [plain, bind, bind_all_eq]

theorem same_all_iff_of {ts us : List Term}
    (h : ∀ t ∈ ts, ∀ u, t.same u = true ↔ t.plain = u.plain) :
    sameAll ts us = true ↔ ts.map plain = us.map plain := by
  induction ts generalizing us with
  | nil => cases us <;> simp [sameAll]
  | cons t ts ih =>
      obtain ⟨ht, hts⟩ := List.forall_mem_cons.1 h
      cases us <;> simp [sameAll, ht, ih hts]

/-- Terms are the same when they are equal but for domains and first names. -/
theorem same_iff {u : Term} : t.same u = true ↔ t.plain = u.plain := by
  induction t using Term.induction generalizing u with
  | hconst c => cases u <;> simp [same, plain, bind]
  | hvar v => cases u <;> simp [same, plain, bind, Variable.plain]
  | hskolem name args ih =>
      cases u with
      | skolem name' args' =>
          rw [same, Bool.and_eq_true_iff, beq_iff_eq, same_all_iff_of ih, plain_skolem,
            plain_skolem, skolem.injEq]
      | const | var => simp [same, plain, bind]

theorem same_all_iff {ts us : List Term} : sameAll ts us = true ↔ ts.map plain = us.map plain :=
  same_all_iff_of fun _ _ _ => same_iff

end Term

/-- The symbols of an atom. -/
def Atom.symbols (a : Atom) : List Symbol := a.terms.flatMap Term.symbols

namespace Atom

variable {h : Variable → Term} {a : Atom}

/-- The atom with its variables reduced to their names. -/
def plain (a : Atom) : Atom := a.mapTerms Term.plain

/-- Atoms are the same when they are equal but for domains and first names. -/
theorem same_iff {b : Atom} : a.same b = true ↔ a.plain = b.plain := by
  rw [same, Bool.and_eq_true_iff, beq_iff_eq, Term.same_all_iff]
  simp [plain, mapTerms]

theorem vars_map_bind : (a.mapTerms (Term.bind h)).vars = a.vars.flatMap fun v => (h v).vars := by
  simp [vars, mapTerms, List.flatMap_map, List.flatMap_assoc, Term.vars_bind]

theorem map_bind_eq_self (hvars : ∀ v ∈ a.vars, h v = .var v) : a.mapTerms (Term.bind h) = a := by
  simp only [vars, List.mem_flatMap] at hvars
  have hterms : a.terms.map (Term.bind h) = a.terms :=
    (List.map_congr_left fun t ht => Term.bind_eq_self fun v hv => hvars v ⟨t, ht, hv⟩).trans
      (List.map_id a.terms)
  rw [mapTerms, hterms]

theorem map_bind_map_bind {k : Variable → Term} :
    (a.mapTerms (Term.bind h)).mapTerms (Term.bind k) =
      a.mapTerms (Term.bind fun v => (h v).bind k) := by
  simp [mapTerms, Term.bind_bind]

theorem symbols_map_bind_subset {S : List Symbol} (hatom : a.symbols ⊆ S)
    (hvars : ∀ v ∈ a.vars, (h v).symbols ⊆ S) : (a.mapTerms (Term.bind h)).symbols ⊆ S := by
  simp only [symbols, flat_map_subset_iff] at hatom
  simp only [vars, List.mem_flatMap] at hvars
  simp only [symbols, mapTerms, flat_map_subset_iff, List.mem_map]
  rintro _ ⟨t, ht, rfl⟩
  exact Term.symbols_bind_subset (hatom t ht) fun v hv => hvars v ⟨t, ht, hv⟩

theorem symbols_subset_of_mem_vars {v : Variable} (hv : v ∈ a.vars) : v.symbols ⊆ a.symbols := by
  obtain ⟨t, ht, hv⟩ := List.mem_flatMap.1 hv
  exact fun σ hσ => List.mem_flatMap.2 ⟨t, ht, Term.symbols_subset_of_mem_vars hv hσ⟩

end Atom

/-- The symbols of a formula, those of its bound variables included. -/
def Formula.symbols : Formula → List Symbol
  | .atom a => a.symbols
  | .not f => f.symbols
  | .binary _ f g => f.symbols ++ g.symbols
  | .quant _ vs f => vs.flatMap Variable.symbols ++ f.symbols

namespace Registry

/-- The symbols that a registry holds. -/
def symbols (r : Registry) : List Symbol :=
  (r.consts.map fun c => .const c.name) ++ (r.vars.map fun v => .var v.name) ++
    r.skolemSymbols.map fun s => .skolem s.name

variable {r mid r' : Registry} {σ : Symbol}

theorem map_name_symbols : r.symbols.map Symbol.name = r.termNames := by
  simp [symbols, termNames, Symbol.name, Function.comp_def]

theorem name_mem_of_mem_symbols (h : σ ∈ r.symbols) : σ.name ∈ r.termNames :=
  map_name_symbols ▸ List.mem_map_of_mem h

/-- The symbols that `r'` holds beyond those of `r`. -/
def addedSymbols (r r' : Registry) : List Symbol :=
  ((r.addedConsts r').map fun c => .const c.name) ++
    ((r.addedVars r').map fun v => .var v.name) ++
    (r.addedSkolems r').map fun s => .skolem s.name

theorem var_mem_added_symbols {v : Variable} (h : v ∈ r.addedVars r') :
    .var v.name ∈ r.addedSymbols r' :=
  List.mem_append_left _ (List.mem_append_right _ (List.mem_map.2 ⟨v, h, rfl⟩))

theorem map_name_added_symbols : (r.addedSymbols r').map Symbol.name = r.addedNames r' := by
  simp [addedSymbols, addedNames, Symbol.name, Function.comp_def]

theorem name_mem_of_mem_added_symbols (h : σ ∈ r.addedSymbols r') : σ.name ∈ r.addedNames r' :=
  map_name_added_symbols ▸ List.mem_map_of_mem h

namespace Grows

/-- The symbols held afterwards are the old ones and the added ones. -/
theorem mem_symbols (h : Grows r r') : σ ∈ r'.symbols ↔ σ ∈ r.symbols ∨ σ ∈ r.addedSymbols r' := by
  unfold symbols addedSymbols
  rw [h.consts_eq, h.vars_eq, h.skolems_eq]
  simp only [List.map_append, List.mem_append]
  tauto

theorem symbols_subset (h : Grows r r') : r.symbols ⊆ r'.symbols :=
  fun _ hσ => h.mem_symbols.2 (.inl hσ)

theorem added_symbols_subset (h : Grows r r') : r.addedSymbols r' ⊆ r'.symbols :=
  fun _ hσ => h.mem_symbols.2 (.inr hσ)

/-- No added symbol has the name of an old one. -/
theorem name_not_added (h : Grows r r') (hσ : σ ∈ r.symbols) : σ.name ∉ r.addedNames r' := by
  intro hadded
  exact h.fresh σ.name hadded (name_mem_of_mem_symbols hσ)

/-- What two actions add is what the first or the second adds. -/
theorem mem_added_symbols (h : Grows r mid) (h' : Grows mid r') :
    σ ∈ r.addedSymbols r' ↔ σ ∈ r.addedSymbols mid ∨ σ ∈ mid.addedSymbols r' := by
  unfold addedSymbols
  rw [added_consts_trans h h', added_vars_trans h h', added_skolems_trans h h']
  simp only [List.map_append, List.mem_append]
  tauto

theorem added_symbols_left (h : Grows r mid) (h' : Grows mid r') :
    r.addedSymbols mid ⊆ r.addedSymbols r' :=
  fun _ hσ => (mem_added_symbols h h').2 (.inl hσ)

theorem added_symbols_right (h : Grows r mid) (h' : Grows mid r') :
    mid.addedSymbols r' ⊆ r.addedSymbols r' :=
  fun _ hσ => (mem_added_symbols h h').2 (.inr hσ)

end Grows

end Registry

/-- Every symbol of the formula is in the registry. -/
def Formula.Registered (f : Formula) (r : Registry) : Prop := f.symbols ⊆ r.symbols

namespace Formula

instance (f : Formula) (r : Registry) : Decidable (f.Registered r) :=
  inferInstanceAs (Decidable (∀ σ ∈ f.symbols, σ ∈ r.symbols))

variable {f g : Formula} {c : Connective} {q : Quantifier} {vs : List Variable} {r r' : Registry}

theorem Registered.mono (h : f.Registered r) (hgrows : r.Grows r') : f.Registered r' :=
  List.Subset.trans h hgrows.symbols_subset

@[simp] theorem registered_not : (not f).Registered r ↔ f.Registered r := Iff.rfl

@[simp] theorem registered_binary :
    (binary c f g).Registered r ↔ f.Registered r ∧ g.Registered r :=
  List.append_subset

@[simp] theorem registered_quant :
    (quant q vs f).Registered r ↔ (∀ v ∈ vs, v.symbols ⊆ r.symbols) ∧ f.Registered r := by
  simp [Registered, symbols, List.append_subset, flat_map_subset_iff]

/-- The symbols of a free variable are symbols of the formula. -/
theorem symbols_subset_of_free {v : Variable} (hv : v ∈ f.freeOccurrences) :
    v.symbols ⊆ f.symbols := by
  induction f with
  | atom a => exact Atom.symbols_subset_of_mem_vars hv
  | not _ ih => exact ih hv
  | binary _ f g ihf ihg =>
      rcases List.mem_append.1 hv with hv | hv
      · exact List.subset_append_of_subset_left _ (ihf hv)
      · exact List.subset_append_of_subset_right _ (ihg hv)
  | quant _ vs f ih => exact List.subset_append_of_subset_right _ (ih (List.mem_filter.1 hv).1)

end Formula

/-! ## Registered variables -/

/-- Every variable of the formula, at a binder or at an atom, is in the registry. -/
def Formula.VariablesRegistered (f : Formula) (r : Registry) : Prop :=
  ∀ v ∈ f.binders ++ f.occurrences, v.name ∈ Variable.names r.vars

namespace Formula

instance (f : Formula) (r : Registry) : Decidable (f.VariablesRegistered r) :=
  inferInstanceAs (Decidable (∀ v ∈ f.binders ++ f.occurrences, v.name ∈ Variable.names r.vars))

variable {f : Formula} {r : Registry}

theorem symbols_subset_of_mem {v : Variable} (hv : v ∈ f.binders ++ f.occurrences) :
    v.symbols ⊆ f.symbols := by
  induction f with
  | atom a => exact Atom.symbols_subset_of_mem_vars hv
  | not _ ih => exact ih hv
  | binary _ f g ihf ihg =>
      simp only [binders, occurrences, List.mem_append] at hv ihf ihg
      rcases hv with (hv | hv) | hv | hv
      · exact List.subset_append_of_subset_left _ (ihf (.inl hv))
      · exact List.subset_append_of_subset_right _ (ihg (.inl hv))
      · exact List.subset_append_of_subset_left _ (ihf (.inr hv))
      · exact List.subset_append_of_subset_right _ (ihg (.inr hv))
  | quant _ vs f ih =>
      simp only [binders, occurrences, List.mem_append, or_assoc] at hv ih
      rcases hv with hv | hv
      · exact fun σ hσ => List.mem_append_left _ (List.mem_flatMap.2 ⟨v, hv, hσ⟩)
      · exact List.subset_append_of_subset_right _ (ih hv)

theorem Registered.variables (h : f.Registered r) : f.VariablesRegistered r := by
  intro v hv
  have hmem := h (symbols_subset_of_mem hv (List.mem_cons_self ..))
  simpa [Registry.symbols] using hmem

theorem mem_occurrences_of_free {v : Variable} (hv : v ∈ f.freeOccurrences) :
    v ∈ f.occurrences := by
  induction f with
  | atom => exact hv
  | not _ ih => exact ih hv
  | binary _ _ _ ihf ihg => exact List.mem_append.2 ((List.mem_append.1 hv).imp ihf ihg)
  | quant _ _ _ ih => exact ih (List.mem_filter.1 hv).1

namespace VariablesRegistered

theorem name_mem (h : f.VariablesRegistered r) {v : Variable}
    (hv : v ∈ f.binders ++ f.occurrences) : v.name ∈ r.termNames :=
  List.mem_append_left _ (List.mem_append_right _ (h v hv))

/-- The free names of a formula are in use when its variables are registered. -/
theorem free_names_subset (h : f.VariablesRegistered r) : f.freeNames ⊆ r.termNames := by
  intro name hname
  obtain ⟨v, hv, rfl⟩ := List.mem_map.1 hname
  exact h.name_mem (List.mem_append_right _ (mem_occurrences_of_free hv))

/-- So are the names it binds. -/
theorem bound_names_subset (h : f.VariablesRegistered r) :
    Variable.names f.binders ⊆ r.termNames := by
  intro name hname
  obtain ⟨v, hv, rfl⟩ := List.mem_map.1 hname
  exact h.name_mem (List.mem_append_left _ hv)

end VariablesRegistered

end Formula

end Clausal
