import Clausal.Proofs.Apart

/-!
# Formulas that are apart already

Standardizing apart leaves a formula as it is, down to what each variable remembers, when its
binders do not interfere and each bound occurrence carries the variable of its binder
(`Formula.CarriesBinders`): no name is seen twice on the way, so nothing is renamed, and what the
scope tells of an occurrence is the occurrence itself (`rename_apart_run`). The results of
standardizing apart are such formulas, so doing it again has no effect (`standardize_apart_stable`).
-/

namespace Clausal

open Variable (names)

namespace Formula

/-- Each occurrence in the formula carries the variable of its binder, the innermost one of its
name. `bound` lists the variables bound further out, the innermost first. -/
def CarriesBinders : List Variable → Formula → Prop
  | bound, atom a => ∀ v ∈ a.vars, ∀ w ∈ bound.find? v.same, v = w
  | bound, not f => f.CarriesBinders bound
  | bound, binary _ f g => f.CarriesBinders bound ∧ g.CarriesBinders bound
  | bound, quant _ vs f => f.CarriesBinders (vs.reverse ++ bound)

instance decidableCarriesBinders : ∀ bound f, Decidable (CarriesBinders bound f)
  | bound, atom a =>
    inferInstanceAs (Decidable (∀ v ∈ a.vars, ∀ w ∈ bound.find? v.same, v = w))
  | bound, not f => decidableCarriesBinders bound f
  | bound, binary _ f g =>
    have := decidableCarriesBinders bound f
    have := decidableCarriesBinders bound g
    inferInstanceAs (Decidable (_ ∧ _))
  | bound, quant _ vs f => decidableCarriesBinders (vs.reverse ++ bound) f

end Formula

/-! ## Scopes in which names mean themselves -/

/-- The scope in which the bound variables, the innermost first, have stayed as they are. -/
def Scope.keeping (bound : List Variable) : Scope := bound.map fun v => (v.name, v)

namespace Scope

variable {bound vs : List Variable} {v : Variable}

theorem enter_keeping : (keeping bound).enter vs vs = keeping (vs.reverse ++ bound) := by
  rw [enter, keeping, keeping, List.map_append, List.map_reverse]
  congr 2
  induction vs with
  | nil => rfl
  | cons v vs ih => rw [List.map_cons, List.zip_cons_cons, ih, List.map_cons]

theorem resolve_keeping : (keeping bound).resolve v = (bound.find? v.same).getD v := by
  rw [resolve]
  congr 1
  induction bound with
  | nil => rfl
  | cons w bound ih =>
      rw [keeping, List.map_cons, List.lookup_cons, List.find?_cons, Variable.same]
      cases v.name == w.name with
      | true => rfl
      | false => exact ih

/-- An occurrence that carries the variable of its binder means itself. -/
theorem resolve_keeping_eq_self (h : ∀ w ∈ bound.find? v.same, v = w) :
    (keeping bound).resolve v = v := by
  rw [resolve_keeping]
  cases hfind : bound.find? v.same with
  | none => rfl
  | some w => exact (h w hfind).symm

end Scope

/-! ## Runs that rename nothing -/

variable {f g : Formula} {bound vs : List Variable} {v : Variable} {seen : List String}
  {r : Registry}

theorem bind_apart_run (h : v.name ∉ seen) :
    ((bindApart v).run seen).run r = pure ((v, v.name :: seen), r) := by
  simp [bindApart, h]

/-- Of distinct names that were not seen, the later ones are not seen when the first ones are. -/
theorem unseen_after {new later : List String} (hnodup : (new ++ later).Nodup)
    (h : ∀ name ∈ new ++ later, name ∉ seen) : ∀ name ∈ later, name ∉ new.reverse ++ seen := by
  obtain ⟨-, -, hne⟩ := List.nodup_append.1 hnodup
  intro name hlater hseen
  rcases List.mem_append.1 hseen with hnew | hseen
  · exact hne name (List.mem_reverse.1 hnew) name hlater rfl
  · exact h name (List.mem_append_right _ hlater) hseen

/-- Variables of distinct names that were not seen before are bound as they are. -/
theorem bind_all_apart_run (hnodup : (names vs).Nodup) (h : ∀ name ∈ names vs, name ∉ seen) :
    ((vs.mapM bindApart).run seen).run r = pure ((vs, (names vs).reverse ++ seen), r) := by
  induction vs generalizing seen with
  | nil => rfl
  | cons v vs ih =>
      have hv : v.name ∉ seen := h _ (List.mem_cons_self ..)
      have hlater : ∀ name ∈ names vs, name ∉ v.name :: seen :=
        @unseen_after seen [v.name] (names vs) hnodup h
      have hvs := ih (List.nodup_cons.1 hnodup).2 hlater
      simp [List.mapM_cons, bind_apart_run hv, hvs]

/-- A walk down a formula that binds distinct names, none of them seen before, changes nothing but
the names seen. -/
theorem rename_apart_run (hf : f.CarriesBinders bound) (hnodup : (names f.binders).Nodup)
    (h : ∀ name ∈ names f.binders, name ∉ seen) :
    ((f.renameApart (.keeping bound)).run seen).run r =
      pure ((f, (names f.binders).reverse ++ seen), r) := by
  induction f generalizing bound seen with
  | atom a =>
      have hatom : (a.mapTerms (Term.bind fun v => .var ((Scope.keeping bound).resolve v))) = a :=
        Atom.map_bind_eq_self fun v hv =>
          congrArg Term.var (Scope.resolve_keeping_eq_self (hf v hv))
      simp [Formula.renameApart, hatom, Formula.binders]
  | not f ih => simp [Formula.renameApart, ih hf hnodup h, Formula.binders]
  | binary c f g ihf ihg =>
      rw [Formula.binders, names, List.map_append] at hnodup h
      obtain ⟨hnodupf, hnodupg, -⟩ := List.nodup_append.1 hnodup
      have hleft := ihf hf.1 hnodupf fun name hname => h name (List.mem_append_left _ hname)
      have hright := ihg hf.2 hnodupg (unseen_after hnodup h)
      simp [Formula.renameApart, hleft, hright, Formula.binders]
  | quant q vs f ih =>
      rw [Formula.binders, names, List.map_append] at hnodup h
      obtain ⟨hnodupvs, hnodupf, -⟩ := List.nodup_append.1 hnodup
      have hvs := bind_all_apart_run (r := r) hnodupvs
        fun name hname => h name (List.mem_append_left _ hname)
      have hbody := ih hf hnodupf (unseen_after hnodup h)
      simp [Formula.renameApart, hvs, Scope.enter_keeping, hbody, Formula.binders]

/-- A formula whose binders do not interfere stays as it is, and so does the registry. -/
theorem standardize_apart_run (hf : f.CarriesBinders []) (hapart : f.IsApart) (r : Registry) :
    f.standardizeApart.run r = pure (f, r) := by
  have hunseen : ∀ name ∈ names f.binders, name ∉ f.freeVariables.map (·.name) := by
    intro name hname hmem
    exact hapart.not_free name hname (Formula.mem_free_names_iff.2 (List.mem_map.1 hmem))
  have hrun := rename_apart_run (r := r) hf hapart.nodup hunseen
  rw [Formula.standardizeApart, StateT.run'_eq, StateT.run_map]
  exact (congrArg _ hrun).trans (map_pure ..)

/-! ## Results of standardizing apart -/

/-- Where variables of one name are one variable, occurrences carry the variables of their
binders. -/
theorem carries_binders_of_eq
    (h : ∀ v ∈ f.occurrences, ∀ w ∈ bound ++ f.binders, v.name = w.name → v = w) :
    f.CarriesBinders bound := by
  induction f generalizing bound with
  | atom a =>
      intro v hv w hw
      have hmem : w ∈ bound := List.mem_of_find?_eq_some hw
      exact h v hv w (List.mem_append_left _ hmem) (Variable.same_iff.1 (List.find?_some hw))
  | not f ih => exact ih h
  | binary c f g ihf ihg =>
      have hsub (left : List Variable) (hleft : left ⊆ f.binders ++ g.binders) :
          bound ++ left ⊆ bound ++ (f.binders ++ g.binders) :=
        List.append_subset.2
          ⟨List.subset_append_left .., List.subset_append_of_subset_right _ hleft⟩
      refine ⟨ihf fun v hv w hw => ?_, ihg fun v hv w hw => ?_⟩
      · exact h v (List.mem_append_left _ hv) w (hsub _ (List.subset_append_left ..) hw)
      · exact h v (List.mem_append_right _ hv) w (hsub _ (List.subset_append_right ..) hw)
  | quant q vs f ih =>
      refine ih fun v hv w hw => h v hv w ?_
      simp only [Formula.binders, List.mem_append, List.mem_reverse] at hw ⊢
      tauto

/-- A renaming puts the new variables of a binder at the occurrences that it binds. -/
theorem Renames.carries_binders {scope : Scope} (h : Renames scope f g) (hapart : g.IsApart) :
    g.CarriesBinders [] :=
  carries_binders_of_eq fun _ hv _ hw hname => (h.eq_of_occurs hapart hw hv hname.symm).symm

/-! ## Main statement -/

/-- A formula whose binders have distinct names, none of them free, and whose bound occurrences
carry the variables of their binders is standardized apart: it stays as it is, nothing is registered
and nothing noted. The result of standardizing a formula apart is one of these, so that doing it
again, from whatever registry, has no effect. -/
theorem standardize_apart_stable (f : Formula) (r : Registry) :
    (f.IsApart → f.CarriesBinders [] → f.standardizeApart.run r = pure (f, r)) ∧
    (f.VariablesRegistered r →
      let g := (f.standardizeApart.run r).value.1
      ∀ r', g.standardizeApart.run r' = pure (g, r')) := by
  refine ⟨fun hapart hcarries => standardize_apart_run hcarries hapart r, ?_⟩
  intro hf g r'
  have hrun : (f.standardizeApart.run r).value = (g, (f.standardizeApart.run r).value.2) := rfl
  obtain ⟨hrenames, hapart, -⟩ := standardize_apart_renames hf hrun
  exact standardize_apart_run (hrenames.carries_binders hapart) hapart r'

namespace Sample

/-- `x` is bound above `p`, which ranges over `A` and was renamed before; a free `y` stands in two
records. -/
def separated : Formula :=
  let x : Variable := { name := "x" }
  let p : Variable := { name := "p_0", domain := some [⟨"A"⟩], origin := some "p" }
  .and (.all [x] (.or (.atom ⟨⟨"P", 1⟩, [.var x]⟩)
      (.ex [p] (.atom ⟨⟨"R", 2⟩, [.var x, .skolem "f" [.var p, .var { name := "y" }]]⟩))))
    (.atom ⟨⟨"P", 1⟩, [.var { name := "y", origin := some "x" }]⟩)

end Sample

open Sample in
theorem standardize_apart_stable_shadowing :
    (separated.IsApart ∧ separated.CarriesBinders [] ∧
      separated.standardizeApart.run shadowingRegistry = pure (separated, shadowingRegistry)) ∧
    shadowing.VariablesRegistered shadowingRegistry ∧
      let g := (shadowing.standardizeApart.run shadowingRegistry).value.1
      g.binders ≠ shadowing.binders ∧ ∀ r', g.standardizeApart.run r' = pure (g, r') := by
  have hapart : separated.IsApart := by decide
  have hcarries : separated.CarriesBinders [] := by decide
  have hregistered : shadowing.VariablesRegistered shadowingRegistry := by decide
  obtain ⟨hstable, -⟩ := standardize_apart_stable separated shadowingRegistry
  obtain ⟨-, hagain⟩ := standardize_apart_stable shadowing shadowingRegistry
  exact ⟨⟨hapart, hcarries, hstable hapart hcarries⟩, hregistered, by decide +kernel,
    hagain hregistered⟩

end Clausal
