import Clausal.Normal.Apart
import Clausal.Proofs.Attempt
import Clausal.Proofs.Truth

/-!
# Standardizing apart is a renaming of bound variables

`Renames scope f g` says that `g` is `f` with other names for bound variables, where `scope` tells
what the names bound further out have become. Such a renaming keeps truth and free variables
(`Renames.holds_iff`, `Renames.free_occurrences`). Standardizing apart threads three things from
left to right: the names seen, the scope and the registry. `RenamesApart.introduces` is what they
keep, one binder introducing one name after the other, and `standardize_apart_correct` what follows
for whole formulas: the result is such a renaming, and no two binders interfere in it.
-/

namespace Clausal

open Variable (names)

universe u

/-! ## Scopes -/

namespace Scope

variable {scope : Scope} {v w : Variable} {vs ws : List Variable}

@[simp] theorem enter_nil : scope.enter [] [] = scope := rfl

/-- Entering a quantifier is entering its variables one after the other. -/
theorem enter_cons :
    scope.enter (v :: vs) (w :: ws) = Scope.enter ((v.name, w) :: scope) vs ws := by
  simp [enter]

theorem resolve_cons_of_eq {x : Variable} (h : x.name = v.name) :
    Scope.resolve ((v.name, w) :: scope) x = w := by
  simp [resolve, h]

theorem resolve_cons_of_ne {x : Variable} (h : x.name ≠ v.name) :
    Scope.resolve ((v.name, w) :: scope) x = scope.resolve x := by
  rw [resolve, List.lookup_cons, beq_false_of_ne h, resolve]

/-- A name that the quantifier does not bind means what it meant outside. -/
theorem resolve_enter_of_not_mem (hlength : ws.length = vs.length) (h : v.name ∉ names vs) :
    (scope.enter vs ws).resolve v = scope.resolve v := by
  induction vs generalizing scope ws with
  | nil => rw [List.length_eq_zero_iff.1 hlength, enter_nil]
  | cons x vs ih =>
      cases ws with
      | nil => cases hlength
      | cons w ws =>
          simp only [List.map_cons, List.mem_cons, not_or] at h
          rw [enter_cons, ih (Nat.succ.inj hlength) h.2, resolve_cons_of_ne h.1]

/-- A name that the quantifier binds becomes one of its new variables. -/
theorem resolve_enter_mem (hlength : ws.length = vs.length) (h : v.name ∈ names vs) :
    (scope.enter vs ws).resolve v ∈ ws := by
  induction vs generalizing scope ws with
  | nil => cases h
  | cons x vs ih =>
      cases ws with
      | nil => cases hlength
      | cons w ws =>
          have hlength := Nat.succ.inj hlength
          rw [enter_cons]
          by_cases hv : v.name ∈ names vs
          · exact List.mem_cons_of_mem _ (ih hlength hv)
          · have hname : v.name = x.name := by simpa [hv] using h
            rw [resolve_enter_of_not_mem hlength hv, resolve_cons_of_eq hname]
            exact List.mem_cons_self ..

/-- Inside a quantifier an occurrence becomes one of the new variables, or what it becomes outside,
where it is free too. -/
theorem resolve_inside {f : Formula} (hlength : ws.length = vs.length)
    (hv : v ∈ f.freeOccurrences) (q : Quantifier) :
    (scope.enter vs ws).resolve v ∈ ws ∨
      v ∈ (Formula.quant q vs f).freeOccurrences ∧
        (scope.enter vs ws).resolve v = scope.resolve v := by
  by_cases hname : v.name ∈ names vs
  · exact .inl (resolve_enter_mem hlength hname)
  · refine .inr ⟨?_, resolve_enter_of_not_mem hlength hname⟩
    simp [Formula.freeOccurrences, hv, hname]

/-- Values given to the old and to the new variables of a quantifier are the same to every
occurrence: to those it binds, and to those that had the same value outside. -/
theorem assign_all_resolve {U : Type u} {s t : Assignment U} {as : List U}
    (hws : ws.length = vs.length) (has : as.length = vs.length) (hnodup : (names ws).Nodup)
    (hout : v.name ∉ names vs →
      s v.name = t (scope.resolve v).name ∧ (scope.resolve v).name ∉ names ws) :
    assignAll s vs as v.name = assignAll t ws as ((scope.enter vs ws).resolve v).name := by
  induction vs generalizing scope s t ws as with
  | nil =>
      cases List.length_eq_zero_iff.1 hws
      cases List.length_eq_zero_iff.1 has
      exact (hout List.not_mem_nil).1
  | cons x vs ih =>
      cases ws with
      | nil => cases hws
      | cons w ws =>
          cases as with
          | nil => cases has
          | cons a as =>
              obtain ⟨hnot, hnodup⟩ := List.nodup_cons.1 hnodup
              rw [enter_cons]
              refine ih (Nat.succ.inj hws) (Nat.succ.inj has) hnodup fun hv => ?_
              by_cases hname : v.name = x.name
              · -- no later new variable takes the name of `w`, so the value stays
                rw [resolve_cons_of_eq hname]
                simp [hname, hnot]
              · obtain ⟨hvalue, hclear⟩ := hout (by simp [hname, hv])
                simp only [List.map_cons, List.mem_cons, not_or] at hclear
                rw [resolve_cons_of_ne hname, Function.update_of_ne hname,
                  Function.update_of_ne hclear.1]
                exact ⟨hvalue, hclear.2⟩

end Scope

/-! ## Renamings -/

/-- `w` has the domain and the source name of `v`. -/
def Variable.Copies (v w : Variable) : Prop :=
  w.domain = v.domain ∧ w.sourceName = v.sourceName

/-- Copies range over the same values. -/
theorem Variable.forall₂_in_range_of_copies {U : Type u} {M : Interpretation U}
    {vs ws : List Variable} {as : List U} (h : List.Forall₂ Variable.Copies vs ws) :
    List.Forall₂ M.InRange vs as ↔ List.Forall₂ M.InRange ws as := by
  induction h generalizing as with
  | nil => rfl
  | cons hcopy _ ih =>
      simp only [List.forall₂_cons_left_iff, ih, Interpretation.InRange, hcopy.1]

theorem Variable.inhabited_of_copies {vs ws : List Variable}
    (h : List.Forall₂ Variable.Copies vs ws) (hvs : ∀ v ∈ vs, v.domain ≠ some []) :
    ∀ w ∈ ws, w.domain ≠ some [] := by
  induction h with
  | nil => exact hvs
  | cons hcopy _ ih =>
      rw [List.forall_mem_cons] at hvs ⊢
      exact ⟨hcopy.1 ▸ hvs.1, ih hvs.2⟩

/-- `g` is `f` with other names for bound variables. The new names of one quantifier are distinct,
and none of them is that of a variable that is free below and bound further out. -/
inductive Renames : Scope → Formula → Formula → Prop where
  | atom (scope : Scope) (a : Atom) :
      Renames scope (.atom a) (.atom (a.mapTerms (Term.bind fun v => .var (scope.resolve v))))
  | not {scope : Scope} {f g : Formula} : Renames scope f g → Renames scope (.not f) (.not g)
  | binary {scope : Scope} {c : Connective} {f f' g g' : Formula} :
      Renames scope f f' → Renames scope g g' → Renames scope (.binary c f g) (.binary c f' g')
  | quant {scope : Scope} {q : Quantifier} {vs ws : List Variable} {f g : Formula} :
      List.Forall₂ Variable.Copies vs ws → (names ws).Nodup →
      (∀ v ∈ (Formula.quant q vs f).freeOccurrences, (scope.resolve v).name ∉ names ws) →
      Renames (scope.enter vs ws) f g → Renames scope (.quant q vs f) (.quant q ws g)

namespace Renames

variable {scope : Scope} {f g : Formula}

/-- Free occurrences become what the scope tells. -/
theorem free_occurrences (h : Renames scope f g) :
    g.freeOccurrences = f.freeOccurrences.map scope.resolve := by
  induction h with
  | atom scope a =>
      simp only [Formula.freeOccurrences, Atom.vars_map_bind, Term.vars]
      exact (List.map_eq_flatMap ..).symm
  | not _ ih => exact ih
  | binary _ _ ihf ihg => simp only [Formula.freeOccurrences, ihf, ihg, List.map_append]
  | @quant scope q vs ws f g hcopies hnodup hclear _ ih =>
      have hlength := hcopies.length_eq.symm
      -- the new variables bind what the old ones did: an occurrence that was free outside does not
      -- come to bear one of their names
      have hkept : ∀ v ∈ f.freeOccurrences,
          ((fun w : Variable => !w.isAmong ws) ∘ (scope.enter vs ws).resolve) v =
            !v.isAmong vs := by
        intro v hv
        rw [Function.comp_apply]
        by_cases hname : v.name ∈ names vs
        · have hmem : (scope.enter vs ws).resolve v ∈ ws := Scope.resolve_enter_mem hlength hname
          rw [Variable.is_among_iff.2 hname, Variable.is_among_iff.2 (List.mem_map_of_mem hmem)]
        · have hfree : v ∈ (Formula.quant q vs f).freeOccurrences := by
            simp [Formula.freeOccurrences, hv, hname]
          rw [Scope.resolve_enter_of_not_mem hlength hname,
            Variable.is_among_eq_false_iff.2 hname,
            Variable.is_among_eq_false_iff.2 (hclear v hfree)]
      rw [Formula.freeOccurrences, Formula.freeOccurrences, ih, List.filter_map,
        List.filter_congr hkept]
      refine List.map_congr_left fun v hv => Scope.resolve_enter_of_not_mem hlength ?_
      simpa using (List.mem_filter.1 hv).2

/-- A renaming keeps truth under assignments that give corresponding free variables one value. -/
theorem holds_iff {U : Type u} {M : Interpretation U} {s t : Assignment U}
    (h : Renames scope f g)
    (hvalue : ∀ v ∈ f.freeOccurrences, s v.name = t (scope.resolve v).name) :
    M.Holds s f ↔ M.Holds t g := by
  induction h generalizing s t with
  | atom scope a =>
      exact (Interpretation.holds_atom_bind (s := t) (t := s)
        (h := fun v => .var (scope.resolve v)) fun v hv => (hvalue v hv).symm).symm
  | not _ ih => exact not_congr (ih hvalue)
  | @binary _ c _ _ _ _ _ _ ihf ihg =>
      have hf := ihf fun v hv => hvalue v (List.mem_append_left _ hv)
      have hg := ihg fun v hv => hvalue v (List.mem_append_right _ hv)
      cases c <;> simp only [Interpretation.Holds, Connective.Combines, hf, hg]
  | @quant scope q vs ws f g hcopies hnodup hclear _ ih =>
      have hlength := hcopies.length_eq.symm
      simp only [Interpretation.Holds, Interpretation.holds_for_iff]
      refine Quantifier.ranges_congr (fun as => Variable.forall₂_in_range_of_copies hcopies)
        fun as has => ih fun v hv => ?_
      refine Scope.assign_all_resolve hlength has.length_eq.symm hnodup fun hname => ?_
      have hfree : v ∈ (Formula.quant q vs f).freeOccurrences := by
        simp [Formula.freeOccurrences, hv, hname]
      exact ⟨hvalue v hfree, hclear v hfree⟩

/-- Occurrences of bound variables carry the variable of their binder. -/
theorem occurrences_subset (h : Renames scope f g) :
    ∀ v ∈ g.occurrences, v ∈ g.binders ∨ v ∈ g.freeOccurrences := by
  induction h with
  | atom => exact fun v hv => .inr hv
  | not _ ih => exact ih
  | binary _ _ ihf ihg =>
      intro v hv
      simp only [Formula.binders, Formula.freeOccurrences, List.mem_append]
      rcases List.mem_append.1 hv with hv | hv
      · have := ihf v hv
        tauto
      · have := ihg v hv
        tauto
  | @quant scope q vs ws f g hcopies hnodup hclear h ih =>
      intro v hv
      have hlength := hcopies.length_eq.symm
      rcases ih v hv with hbound | hfree
      · exact .inl (List.mem_append_right _ hbound)
      · have hresolved := h.free_occurrences ▸ hfree
        obtain ⟨x, hx, rfl⟩ := List.mem_map.1 hresolved
        rcases Scope.resolve_inside hlength hx q with hnew | ⟨hout, hsame⟩
        · exact .inl (List.mem_append_left _ hnew)
        · refine .inr (List.mem_filter.2 ⟨hfree, ?_⟩)
          rw [hsame]
          simpa using hclear x hout

/-- A binder and an occurrence of its name are of one variable, where binders are apart. -/
theorem eq_of_occurs (h : Renames scope f g) (hapart : g.IsApart) {v w : Variable}
    (hv : v ∈ g.binders) (hw : w ∈ g.occurrences) (hname : v.name = w.name) : v = w := by
  rcases h.occurrences_subset w hw with hbound | hfree
  · exact Variable.eq_of_name_eq hapart.nodup hv hbound hname
  · exact absurd (List.mem_map_of_mem hfree)
      (hname ▸ hapart.not_free v.name (List.mem_map_of_mem hv))

/-- Binder positions keep their domains and source names. -/
theorem binders (h : Renames scope f g) : List.Forall₂ Variable.Copies f.binders g.binders := by
  induction h with
  | atom => exact .nil
  | not _ ih => exact ih
  | binary _ _ ihf ihg => exact List.rel_append ihf ihg
  | quant hcopies _ _ _ ih => exact List.rel_append hcopies ih

theorem ranges_inhabited (h : Renames scope f g) (hf : f.RangesInhabited) :
    g.RangesInhabited :=
  Variable.inhabited_of_copies h.binders hf

end Renames

/-! ## Runs -/

/-- The names seen so far, and the registry. -/
abbrev NamingState := List String × Registry

namespace Naming

variable {α β : Type} {x : Naming α} {h : α → Naming β} {st st' : NamingState} {a : α} {b : β}

/-- The action gives `a` and leads from the state `st` to `st'`. -/
def Gives (x : Naming α) (st : NamingState) (a : α) (st' : NamingState) : Prop :=
  ((x.run st.1).run st.2).value = ((a, st'.1), st'.2)

@[simp] theorem gives_pure {a' : α} : (pure a : Naming α).Gives st a' st' ↔ a' = a ∧ st' = st := by
  simp [Gives, Prod.ext_iff, eq_comm, and_assoc]

@[simp] theorem gives_bind :
    (x >>= h).Gives st b st' ↔ ∃ a mid, x.Gives st a mid ∧ (h a).Gives mid b st' := by
  simp only [Gives, StateT.run_bind, Logged.value_bind]
  constructor
  · exact fun hrun => ⟨_, (_, _), rfl, hrun⟩
  · rintro ⟨a, mid, hx, hh⟩
    rw [hx]
    exact hh

@[simp] theorem gives_get {seen : List String} :
    (get : Naming (List String)).Gives st seen st' ↔ seen = st.1 ∧ st' = st := by
  simp [Gives, Prod.ext_iff, eq_comm, and_assoc]

@[simp] theorem gives_modify {change : List String → List String} {u : PUnit} :
    (modify change : Naming PUnit).Gives st u st' ↔ st' = (change st.1, st.2) := by
  simp [Gives, Prod.ext_iff, eq_comm]

@[simp] theorem gives_action {y : Action α} :
    (liftM y : Naming α).Gives st a st' ↔ (y.run st.2).value = (a, st'.2) ∧ st'.1 = st.1 := by
  simp only [Gives, Prod.ext_iff]
  exact ⟨fun h => ⟨⟨h.1.1, h.2⟩, h.1.2.symm⟩, fun h => ⟨⟨h.1.1, h.2.symm⟩, h.1.2⟩⟩

/-- An action whose final state is not wanted. -/
theorem gives_of_run {seen : List String} {r r' : Registry}
    (h : ((x.run' seen).run r).value = (a, r')) : ∃ seen', x.Gives (seen, r) a (seen', r') := by
  simp only [StateT.run'_eq, StateT.run_map, Logged.value_map] at h
  cases h
  exact ⟨_, rfl⟩

theorem gives_map_m {h : α → Naming β} {xs : List α} {ys : List β} :
    (xs.mapM h).Gives st ys st' ↔ Threads (fun x => (h x).Gives) xs st ys st' :=
  Threads.map_m_iff gives_pure gives_bind

end Naming

/-- The new names are distinct and were not seen before; now they are, and all names seen are in
use in a registry that has grown. -/
structure Introduces (new : List String) (st st' : NamingState) : Prop where
  grows : st.2.Grows st'.2
  nodup : new.Nodup
  unseen : ∀ name ∈ new, name ∉ st.1
  seen : ∀ name, name ∈ st'.1 ↔ name ∈ st.1 ∨ name ∈ new
  inUse : st'.1 ⊆ st'.2.termNames

namespace Introduces

variable {new new' : List String} {st mid st' : NamingState}

theorem refl (hinUse : st.1 ⊆ st.2.termNames) : Introduces [] st st where
  grows := .refl _
  nodup := List.nodup_nil
  unseen := fun _ h => absurd h List.not_mem_nil
  seen := by simp
  inUse := hinUse

theorem trans (h : Introduces new st mid) (h' : Introduces new' mid st') :
    Introduces (new ++ new') st st' where
  grows := h.grows.trans h'.grows
  nodup := by
    rw [List.nodup_append]
    refine ⟨h.nodup, h'.nodup, ?_⟩
    rintro name hname _ hname' rfl
    exact h'.unseen name hname' ((h.seen name).2 (.inr hname))
  unseen := by
    intro name hname hseen
    rcases List.mem_append.1 hname with hname | hname
    · exact h.unseen name hname hseen
    · exact h'.unseen name hname ((h.seen name).2 (.inl hseen))
  seen := by
    intro name
    rw [h'.seen, h.seen, List.mem_append, or_assoc]
  inUse := h'.inUse

end Introduces

/-! ## Binders -/

/-- A binder keeps its variable when the name was not seen, or else takes a copy under another name,
the only symbol added. -/
inductive BindsApart (v : Variable) (st : NamingState) : Variable → NamingState → Prop where
  | keep : v.name ∉ st.1 → BindsApart v st v (v.name :: st.1, st.2)
  | fresh {r' : Registry} (name : String) : v.name ∈ st.1 →
      st.2.Adds r' [] [v.renamed name] [] → BindsApart v st (v.renamed name) (name :: st.1, r')

theorem bind_apart_gives {v w : Variable} {st st' : NamingState}
    (h : (bindApart v).Gives st w st') : BindsApart v st w st' := by
  simp only [bindApart, Naming.gives_bind, Naming.gives_get] at h
  obtain ⟨_, _, ⟨rfl, rfl⟩, h⟩ := h
  split at h
  · next hseen =>
      simp only [Naming.gives_bind, Naming.gives_action, Naming.gives_modify,
        Naming.gives_pure] at h
      obtain ⟨_, mid, ⟨hfresh, hmid⟩, _, _, rfl, rfl, rfl⟩ := h
      obtain ⟨name, rfl, hadds⟩ := fresh_variable_run hfresh
      rw [hmid]
      exact .fresh name (by simpa using hseen) hadds
  · next hseen =>
      simp only [Naming.gives_bind, Naming.gives_modify, Naming.gives_pure] at h
      obtain ⟨_, _, ⟨rfl, rfl⟩, _, _, rfl, rfl, rfl⟩ := h
      exact .keep (by simpa using hseen)

namespace BindsApart

variable {v w : Variable} {st st' : NamingState}

theorem grows (h : BindsApart v st w st') : st.2.Grows st'.2 := by
  cases h with
  | keep => exact .refl _
  | fresh _ _ hadds => exact hadds.grows

theorem copies (h : BindsApart v st w st') : v.Copies w := by
  cases h <;> exact ⟨rfl, rfl⟩

/-- The variable was there before or is one that was added. -/
theorem kept_or_added (h : BindsApart v st w st') : w = v ∨ w ∈ st.2.addedVars st'.2 := by
  cases h with
  | keep => exact .inl rfl
  | fresh _ _ hadds => exact .inr (hadds.vars ▸ List.mem_singleton.2 rfl)

/-- No constant or Skolem function is added. -/
theorem adds_variables (h : BindsApart v st w st') :
    st'.2.consts = st.2.consts ∧ st'.2.skolemSymbols = st.2.skolemSymbols := by
  cases h with
  | keep => exact ⟨rfl, rfl⟩
  | fresh _ _ hadds =>
      rw [hadds.consts_eq, hadds.skolems_eq]
      exact ⟨List.append_nil _, List.append_nil _⟩

/-- A binder introduces one name. -/
theorem introduces (h : BindsApart v st w st') (hinUse : st.1 ⊆ st.2.termNames)
    (hv : v.name ∈ st.2.termNames) : Introduces [w.name] st st' := by
  cases h with
  | keep hunseen =>
      refine ⟨.refl _, List.nodup_singleton _, by simpa using hunseen, by simp [or_comm], ?_⟩
      exact List.cons_subset.2 ⟨hv, hinUse⟩
  | @fresh r' name _ hadds =>
      have hmem : v.renamed name ∈ r'.vars := by simp [hadds.vars_eq]
      refine ⟨hadds.grows, List.nodup_singleton _, ?_, by simp [Variable.renamed, or_comm], ?_⟩
      · simpa [Variable.renamed] using fun hold => hadds.fresh_var (hinUse hold)
      · refine List.cons_subset.2 ⟨?_, List.Subset.trans hinUse hadds.grows.term_names_subset⟩
        exact List.mem_append_left _ (List.mem_append_right _ (List.mem_map_of_mem hmem))

end BindsApart

/-- The variables of a quantifier are bound apart one after the other. -/
abbrev BindsAllApart : List Variable → NamingState → List Variable → NamingState → Prop :=
  Threads BindsApart

namespace BindsAllApart

variable {vs ws : List Variable} {st st' : NamingState}

theorem grows (h : BindsAllApart vs st ws st') : st.2.Grows st'.2 := by
  induction h with
  | nil => exact .refl _
  | cons hstep _ ih => exact hstep.grows.trans ih

theorem copies (h : BindsAllApart vs st ws st') : List.Forall₂ Variable.Copies vs ws :=
  h.forall₂ fun _ _ _ _ hstep => hstep.copies

theorem kept_or_added (h : BindsAllApart vs st ws st') {w : Variable} (hw : w ∈ ws) :
    w ∈ vs ∨ w ∈ st.2.addedVars st'.2 := by
  induction h with
  | nil => cases hw
  | cons hstep hrest ih =>
      rw [Registry.Grows.added_vars_trans hstep.grows (grows hrest), List.mem_append, List.mem_cons]
      rcases List.mem_cons.1 hw with rfl | hw
      · have := hstep.kept_or_added
        tauto
      · have := ih hw
        tauto

theorem adds_variables (h : BindsAllApart vs st ws st') :
    st'.2.consts = st.2.consts ∧ st'.2.skolemSymbols = st.2.skolemSymbols := by
  induction h with
  | nil => exact ⟨rfl, rfl⟩
  | cons hstep _ ih =>
      exact ⟨ih.1.trans hstep.adds_variables.1, ih.2.trans hstep.adds_variables.2⟩

theorem introduces (h : BindsAllApart vs st ws st') (hinUse : st.1 ⊆ st.2.termNames)
    (hvs : names vs ⊆ st.2.termNames) : Introduces (names ws) st st' := by
  induction h with
  | nil => exact .refl hinUse
  | cons hstep _ ih =>
      obtain ⟨hv, hvs⟩ := List.cons_subset.1 hvs
      have hnew := hstep.introduces hinUse hv
      exact hnew.trans (ih hnew.inUse (List.Subset.trans hvs hnew.grows.term_names_subset))

/-- New variables have a new name and the domain of an old one. -/
theorem symbols_subset (h : BindsAllApart vs st ws st') {S : List Symbol}
    (hvs : ∀ v ∈ vs, v.symbols ⊆ S) (hadded : st.2.addedSymbols st'.2 ⊆ S) :
    ∀ w ∈ ws, w.symbols ⊆ S := by
  intro w hw
  obtain ⟨v, hv, hcopy⟩ := exists_left_of_forall₂ h.copies hw
  have hdomain := (List.cons_subset.1 (hvs v hv)).2
  refine List.cons_subset.2 ⟨?_, hcopy.1 ▸ hdomain⟩
  rcases h.kept_or_added hw with hkept | hnew
  · exact hvs w hkept (List.mem_cons_self ..)
  · exact hadded (Registry.var_mem_added_symbols hnew)

end BindsAllApart

/-! ## Walks -/

/-- The walk below `scope` from the state `st` makes `g` of `f` and ends in `st'`. -/
inductive RenamesApart : Scope → Formula → NamingState → Formula → NamingState → Prop where
  | atom (scope : Scope) (st : NamingState) (a : Atom) : RenamesApart scope (.atom a) st
      (.atom (a.mapTerms (Term.bind fun v => .var (scope.resolve v)))) st
  | not {scope : Scope} {f g : Formula} {st st' : NamingState} :
      RenamesApart scope f st g st' → RenamesApart scope (.not f) st (.not g) st'
  | binary {scope : Scope} {c : Connective} {f f' g g' : Formula} {st mid st' : NamingState} :
      RenamesApart scope f st f' mid → RenamesApart scope g mid g' st' →
      RenamesApart scope (.binary c f g) st (.binary c f' g') st'
  | quant {scope : Scope} {q : Quantifier} {vs ws : List Variable} {f g : Formula}
      {st mid st' : NamingState} : BindsAllApart vs st ws mid →
      RenamesApart (scope.enter vs ws) f mid g st' →
      RenamesApart scope (.quant q vs f) st (.quant q ws g) st'

theorem rename_apart_gives {scope : Scope} {f g : Formula} {st st' : NamingState}
    (h : (f.renameApart scope).Gives st g st') : RenamesApart scope f st g st' := by
  induction f generalizing scope g st st' with
  | atom a =>
      obtain ⟨rfl, rfl⟩ := Naming.gives_pure.1 h
      exact .atom scope _ a
  | not f ih =>
      simp only [Formula.renameApart, Naming.gives_bind, Naming.gives_pure] at h
      obtain ⟨g, _, hf, rfl, rfl⟩ := h
      exact .not (ih hf)
  | binary c f₁ f₂ ih₁ ih₂ =>
      simp only [Formula.renameApart, Naming.gives_bind, Naming.gives_pure] at h
      obtain ⟨g₁, mid, h₁, g₂, _, h₂, rfl, rfl⟩ := h
      exact .binary (ih₁ h₁) (ih₂ h₂)
  | quant q vs f ih =>
      simp only [Formula.renameApart, Naming.gives_bind, Naming.gives_pure,
        Naming.gives_map_m] at h
      obtain ⟨ws, mid, hbind, g, _, hf, rfl, rfl⟩ := h
      exact .quant (hbind.mono fun _ _ _ _ _ => bind_apart_gives) (ih hf)

namespace RenamesApart

variable {scope : Scope} {f g : Formula} {st st' : NamingState}

theorem grows (h : RenamesApart scope f st g st') : st.2.Grows st'.2 := by
  induction h with
  | atom => exact .refl _
  | not _ ih => exact ih
  | binary _ _ ihf ihg => exact ihf.trans ihg
  | quant hbind _ ih => exact hbind.grows.trans ih

theorem adds_variables (h : RenamesApart scope f st g st') :
    st'.2.consts = st.2.consts ∧ st'.2.skolemSymbols = st.2.skolemSymbols := by
  induction h with
  | atom => exact ⟨rfl, rfl⟩
  | not _ ih => exact ih
  | binary _ _ ihf ihg => exact ⟨ihg.1.trans ihf.1, ihg.2.trans ihf.2⟩
  | quant hbind _ ih =>
      exact ⟨ih.1.trans hbind.adds_variables.1, ih.2.trans hbind.adds_variables.2⟩

theorem copies (h : RenamesApart scope f st g st') :
    List.Forall₂ Variable.Copies f.binders g.binders := by
  induction h with
  | atom => exact .nil
  | not _ ih => exact ih
  | binary _ _ ihf ihg => exact List.rel_append ihf ihg
  | quant hbind _ ih => exact List.rel_append hbind.copies ih

/-- A walk keeps negation normal forms. Below a negation it keeps atoms and compounds apart. -/
theorem is_nnf (h : RenamesApart scope f st g st') :
    g.isNnf = f.isNnf ∧ (Formula.not g).isNnf = (Formula.not f).isNnf := by
  induction h with
  | atom => exact ⟨rfl, rfl⟩
  | not _ ih => exact ⟨ih.2, rfl⟩
  | @binary _ c _ _ _ _ _ _ _ _ _ ihf ihg =>
      exact ⟨by cases c <;> simp [Formula.isNnf, ihf.1, ihg.1], rfl⟩
  | quant _ _ ih => exact ⟨ih.1, rfl⟩

/-- A walk brings in no symbols but those added and those of the variables bound further out. -/
theorem symbols_subset (h : RenamesApart scope f st g st') {S : List Symbol} (hf : f.symbols ⊆ S)
    (hadded : st.2.addedSymbols st'.2 ⊆ S)
    (hscope : ∀ v ∈ f.freeOccurrences, (scope.resolve v).symbols ⊆ S) : g.symbols ⊆ S := by
  induction h with
  | atom => exact Atom.symbols_map_bind_subset hf hscope
  | not _ ih => exact ih hf hadded hscope
  | binary h₁ h₂ ihf ihg =>
      obtain ⟨hf, hg⟩ := List.append_subset.1 hf
      refine List.append_subset.2 ⟨ihf hf ?_ fun v hv => ?_, ihg hg ?_ fun v hv => ?_⟩
      · exact List.Subset.trans (Registry.Grows.added_symbols_left h₁.grows h₂.grows) hadded
      · exact hscope v (List.mem_append_left _ hv)
      · exact List.Subset.trans (Registry.Grows.added_symbols_right h₁.grows h₂.grows) hadded
      · exact hscope v (List.mem_append_right _ hv)
  | @quant _ q _ _ _ _ _ _ _ hbind h ih =>
      obtain ⟨hvs, hf⟩ := List.append_subset.1 hf
      have hbefore := Registry.Grows.added_symbols_left hbind.grows h.grows
      have hsince := Registry.Grows.added_symbols_right hbind.grows h.grows
      have hws := hbind.symbols_subset (flat_map_subset_iff.1 hvs)
        (List.Subset.trans hbefore hadded)
      refine List.append_subset.2 ⟨flat_map_subset_iff.2 hws, ?_⟩
      refine ih hf (List.Subset.trans hsince hadded) ?_
      intro v hv
      rcases Scope.resolve_inside hbind.copies.length_eq.symm hv q with hnew | ⟨hout, hsame⟩
      · exact hws _ hnew
      · rw [hsame]
        exact hscope v hout

/-- The walk renames the bound variables and introduces the names of its result's binders, as long
as names bound and seen are in use and those bound further out have been seen. -/
theorem introduces (h : RenamesApart scope f st g st') (hinUse : st.1 ⊆ st.2.termNames)
    (hf : names f.binders ⊆ st.2.termNames)
    (hscope : ∀ v ∈ f.freeOccurrences, (scope.resolve v).name ∈ st.1) :
    Renames scope f g ∧ Introduces (names g.binders) st st' := by
  induction h with
  | atom scope _ a => exact ⟨.atom scope a, .refl hinUse⟩
  | not _ ih =>
      obtain ⟨hrenames, hnew⟩ := ih hinUse hf hscope
      exact ⟨.not hrenames, hnew⟩
  | binary _ _ ihf ihg =>
      rw [Formula.binders, names, List.map_append, List.append_subset] at hf
      obtain ⟨hrenames₁, hnew₁⟩ := ihf hinUse hf.1 fun v hv => hscope v (List.mem_append_left _ hv)
      obtain ⟨hrenames₂, hnew₂⟩ := ihg hnew₁.inUse
        (List.Subset.trans hf.2 hnew₁.grows.term_names_subset)
        fun v hv => (hnew₁.seen _).2 (.inl (hscope v (List.mem_append_right _ hv)))
      refine ⟨.binary hrenames₁ hrenames₂, ?_⟩
      rw [Formula.binders, names, List.map_append]
      exact hnew₁.trans hnew₂
  | @quant scope q vs ws f g st mid _ hbind _ ih =>
      rw [Formula.binders, names, List.map_append, List.append_subset] at hf
      have hnew := hbind.introduces hinUse hf.1
      have hinside : ∀ v ∈ f.freeOccurrences, ((scope.enter vs ws).resolve v).name ∈ mid.1 := by
        intro v hv
        rw [hnew.seen]
        rcases Scope.resolve_inside hbind.copies.length_eq.symm hv q with hmem | ⟨hout, hsame⟩
        · exact .inr (List.mem_map_of_mem hmem)
        · rw [hsame]
          exact .inl (hscope v hout)
      obtain ⟨hrenames, hnew'⟩ := ih hnew.inUse
        (List.Subset.trans hf.2 hnew.grows.term_names_subset) hinside
      refine ⟨.quant hbind.copies hnew.nodup ?_ hrenames, ?_⟩
      · intro v hv hmem
        exact hnew.unseen _ hmem (hscope v hv)
      · rw [Formula.binders, names, List.map_append]
        exact hnew.trans hnew'

end RenamesApart

/-! ## Whole formulas -/

section Whole

variable {f g : Formula} {r r' : Registry}

theorem renames_apart_of_run (h : (f.standardizeApart.run r).value = (g, r')) :
    ∃ seen, RenamesApart [] f (names f.freeVariables, r) g (seen, r') := by
  obtain ⟨seen, hgives⟩ := Naming.gives_of_run h
  exact ⟨seen, rename_apart_gives hgives⟩

/-- Standardizing a formula apart renames its bound variables, so that no binders interfere, and
keeps its free variables, as long as its variables are registered. -/
theorem standardize_apart_renames (hf : f.VariablesRegistered r)
    (h : (f.standardizeApart.run r).value = (g, r')) :
    Renames [] f g ∧ g.IsApart ∧ g.freeOccurrences = f.freeOccurrences := by
  have hseen : ∀ name, name ∈ names f.freeVariables ↔ name ∈ f.freeNames := fun name => by
    rw [Formula.mem_free_names_iff, List.mem_map]
  obtain ⟨seen, hwalk⟩ := renames_apart_of_run h
  obtain ⟨hrenames, hnew⟩ := hwalk.introduces
    (fun name hname => hf.free_names_subset ((hseen name).1 hname)) hf.bound_names_subset
    fun v hv => (hseen _).2 (List.mem_map_of_mem hv)
  have hfree : g.freeOccurrences = f.freeOccurrences := by
    rw [hrenames.free_occurrences]
    exact List.map_id _
  refine ⟨hrenames, ⟨hnew.nodup, fun name hname hmem => ?_⟩, hfree⟩
  rw [Formula.freeNames, hfree] at hmem
  exact hnew.unseen name hname ((hseen name).2 hmem)

theorem standardize_apart_grows (h : (f.standardizeApart.run r).value = (g, r')) : r.Grows r' :=
  have ⟨_, hwalk⟩ := renames_apart_of_run h
  hwalk.grows

/-- Standardizing apart adds no constants and no Skolem functions. -/
theorem standardize_apart_adds_variables (h : (f.standardizeApart.run r).value = (g, r')) :
    r'.consts = r.consts ∧ r'.skolemSymbols = r.skolemSymbols :=
  have ⟨_, hwalk⟩ := renames_apart_of_run h
  hwalk.adds_variables

theorem standardize_apart_copies (h : (f.standardizeApart.run r).value = (g, r')) :
    List.Forall₂ Variable.Copies f.binders g.binders :=
  have ⟨_, hwalk⟩ := renames_apart_of_run h
  hwalk.copies

theorem standardize_apart_is_nnf (h : (f.standardizeApart.run r).value = (g, r')) :
    g.isNnf = f.isNnf :=
  have ⟨_, hwalk⟩ := renames_apart_of_run h
  hwalk.is_nnf.1

/-- Standardizing apart brings in no symbols but those added. -/
theorem standardize_apart_symbols (h : (f.standardizeApart.run r).value = (g, r'))
    {S : List Symbol} (hf : f.symbols ⊆ S) (hadded : r.addedSymbols r' ⊆ S) : g.symbols ⊆ S := by
  obtain ⟨_, hwalk⟩ := renames_apart_of_run h
  exact hwalk.symbols_subset hf hadded fun v hv =>
    List.Subset.trans (Formula.symbols_subset_of_free hv) hf

/-- Standardizing apart renames bound variables and captures none. Afterwards binders have names
that are pairwise distinct and not free; free variables are the same, each binder keeps its domain
and its source name, and the formula its truth. -/
theorem standardize_apart_correct (hf : f.VariablesRegistered r) :
    let g := (f.standardizeApart.run r).value.1
    Renames [] f g ∧ g.IsApart ∧ g.freeVariables = f.freeVariables ∧
      List.Forall₂ Variable.Copies f.binders g.binders ∧
      ∀ {U : Type u} (M : Interpretation U) (s : Assignment U), M.Holds s g ↔ M.Holds s f := by
  intro g
  have hrun : (f.standardizeApart.run r).value = (g, (f.standardizeApart.run r).value.2) := rfl
  obtain ⟨hrenames, hapart, hfree⟩ := standardize_apart_renames hf hrun
  refine ⟨hrenames, hapart, ?_, hrenames.binders, fun M s => ?_⟩
  · rw [Formula.freeVariables, hfree, Formula.freeVariables]
  · exact (hrenames.holds_iff fun _ _ => rfl).symm

end Whole

namespace Sample

/-- `x` is free, then bound twice by one quantifier and once more inside, next to an `x_0` that
looks like a fresh name. -/
def shadowing : Formula :=
  let x : Variable := { name := "x" }
  let x₀ : Variable := { name := "x_0", domain := some [⟨"A"⟩] }
  .and (.atom ⟨⟨"P", 1⟩, [.var x]⟩) <| .all [x, x] <|
    .iff (.ex [x] (.atom ⟨⟨"P", 1⟩, [.var x]⟩)) (.ex [x₀] (.atom ⟨⟨"R", 2⟩, [.var x, .var x₀]⟩))

/-- A registry that holds its variables. -/
def shadowingRegistry : Registry :=
  { consts := [⟨"A"⟩], vars := [{ name := "x" }, { name := "x_0", domain := some [⟨"A"⟩] }] }

end Sample

open Sample in
theorem standardize_apart_correct_shadowing :
    shadowing.VariablesRegistered shadowingRegistry ∧
    let g := (shadowing.standardizeApart.run shadowingRegistry).value.1
    names g.binders = ["x_1", "x_2", "x_3", "x_0"] ∧ Renames [] shadowing g ∧ g.IsApart ∧
      g.freeVariables = shadowing.freeVariables ∧
      List.Forall₂ Variable.Copies shadowing.binders g.binders ∧
      ∀ (M : Interpretation Nat) s, M.Holds s g ↔ M.Holds s shadowing := by
  have hvariables : shadowing.VariablesRegistered shadowingRegistry := by decide
  obtain ⟨hrenames, hapart, hfree, hcopies, hholds⟩ := standardize_apart_correct hvariables
  exact ⟨hvariables, by decide +kernel, hrenames, hapart, hfree, hcopies, fun M s => hholds M s⟩

end Clausal
