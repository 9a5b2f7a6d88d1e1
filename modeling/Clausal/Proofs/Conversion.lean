import Clausal.Normal.Conversion
import Clausal.Proofs.Distribute
import Clausal.Proofs.Negation
import Clausal.Proofs.Skolem.Truth
import Clausal.Proofs.Universals

/-!
# Conversion to conjunctive normal form

A conversion passes through the stages of `Stages`. It loses no model (`to_cnf_complete`): a
structure that satisfies a formula has a variant, changed on minted symbols only, that satisfies
the normal form whatever values its other variables have. It invents no model either, unless
closed-world expansion copies a universal quantifier (`to_cnf_sound`): the copies then share their
variables, and `to_cnf_shares_universals` is an unsatisfiable formula with a satisfiable normal
form.
-/

namespace Clausal

open Variable (names)

universe u

variable {U : Type u}

/-- `t` has the values of `s` for the free variables of `f`, and for each other variable of the
normal form `c` a value in its range. -/
structure Interpretation.Completes (M : Interpretation U) (f c : Formula) (s t : Assignment U) :
    Prop where
  free : ∀ v ∈ f.freeVariables, t v.name = s v.name
  range : ∀ v ∈ c.freeVariables, v.isAmong f.freeVariables = false → M.InRange v (t v.name)

/-- A formula `f` becomes `g` with its variables apart, `k` without existentials, and `c` in the
end. -/
structure Stages (cfg : Config) (f : Formula) (r : Registry) (g : Formula) (mid : Registry)
    (k c : Formula) (r' : Registry) : Prop where
  standardized : (f.toNnf.standardizeApart.run r).value = (g, mid)
  skolemized : Skolemizes cfg [] [] g mid k r'
  distributed : k.dropUniversals.distribute = .ok c

/-- A successful conversion passes through all stages. -/
theorem to_cnf_stages {cfg : Config} {f c : Formula} {r r' : Registry}
    (h : (f.toCnf cfg).Yields r c r') : ∃ g mid k, Stages cfg f r g mid k c r' := by
  simp only [Formula.toCnf, Formula.runConversion, Formula.reach, Formula.skolemize,
    Formula.to_nnf_eliminate_arrows, Attempt.yields_atomically, Attempt.yields_bind,
    Attempt.yields_note, Attempt.yields_action, Attempt.yields_of_except, Attempt.yields_pure,
    exists_const, exists_eq_left] at h
  obtain ⟨g, mid, hapart, k, _, hskolem, _, _, ⟨hdistribute, rfl⟩, rfl, rfl⟩ := h
  exact ⟨g, mid, k, hapart, ⟨1, hskolem⟩, hdistribute⟩

namespace Stages

variable {cfg : Config} {f g k c : Formula} {r mid r' : Registry} {M N : Interpretation U}
  {s t : Assignment U} {v : Variable}

/-! ## What the stages keep -/

/-- The formula with its variables apart. -/
theorem apart (h : Stages cfg f r g mid k c r') (hreg : f.Registered r) :
    Renames [] f.toNnf g ∧ g.Registered mid ∧ g.IsApart ∧
      g.freeOccurrences = f.toNnf.freeOccurrences := by
  have hnnf : f.toNnf.Registered r := List.Subset.trans Formula.symbols_signed_nnf_subset hreg
  have hgrows := standardize_apart_grows h.standardized
  obtain ⟨hrenames, hapart, hfree⟩ := standardize_apart_renames hnnf.variables h.standardized
  refine ⟨hrenames, ?_, hapart, hfree⟩
  exact standardize_apart_symbols h.standardized (hnnf.mono hgrows) hgrows.added_symbols_subset

theorem grows (h : Stages cfg f r g mid k c r') : r.Grows r' :=
  (standardize_apart_grows h.standardized).trans h.skolemized.grows

/-- Variables apart are free when they were free in the formula. -/
theorem mem_free_names (h : Stages cfg f r g mid k c r') (hreg : f.Registered r) {name : String} :
    name ∈ g.freeNames ↔ name ∈ f.freeNames := by
  rw [Formula.freeNames, (h.apart hreg).2.2.2]
  exact Formula.mem_free_names_signed_nnf

theorem ranges_inhabited (h : Stages cfg f r g mid k c r') (hreg : f.Registered r)
    (hf : f.RangesInhabited) : g.RangesInhabited :=
  (h.apart hreg).1.ranges_inhabited fun v hv => hf v (Formula.binders_signed_nnf_subset hv)

theorem binders_subset (h : Stages cfg f r g mid k c r') : k.binders ⊆ g.binders := by
  rw [h.skolemized.binders_eq]
  exact Formula.expanded_universals_subset

/-- Until variables are apart the formula keeps its truth. -/
theorem holds_apart (h : Stages cfg f r g mid k c r') (hreg : f.Registered r) :
    M.Holds s g ↔ M.Holds s f :=
  ((h.apart hreg).1.holds_iff fun _ _ => rfl).symm.trans Interpretation.holds_to_nnf

/-- From the formula without existentials on only the quantifiers matter. -/
theorem holds_cnf (h : Stages cfg f r g mid k c r') :
    M.Holds s c ↔ M.Holds s k.dropUniversals :=
  Interpretation.holds_distribute h.distributed

theorem mem_occurrences (h : Stages cfg f r g mid k c r') :
    v ∈ c.occurrences ↔ v ∈ k.occurrences := by
  rw [Formula.mem_distribute (fun _ _ _ => rfl) h.distributed, Formula.occurrences_drop]

/-- The normal form mentions symbols of the formula and those that were added. -/
theorem symbols_subset (h : Stages cfg f r g mid k c r') {S : List Symbol} (hf : f.symbols ⊆ S)
    (hadded : r.addedSymbols r' ⊆ S) : c.symbols ⊆ S := by
  have hfirst := standardize_apart_grows h.standardized
  have hbefore := Registry.Grows.added_symbols_left hfirst h.skolemized.grows
  have hsince := Registry.Grows.added_symbols_right hfirst h.skolemized.grows
  have hg : g.symbols ⊆ S := standardize_apart_symbols h.standardized
    (List.Subset.trans Formula.symbols_signed_nnf_subset hf) (List.Subset.trans hbefore hadded)
  intro σ hσ
  have hk := (Formula.mem_distribute (fun _ _ _ => rfl) h.distributed).1 hσ
  exact h.skolemized.symbols_subset (.top hg) (List.Subset.trans hsince hadded)
    (Formula.symbols_drop_subset hk)

/-- All variables of the normal form are free in it. -/
theorem free_occurrences_cnf (h : Stages cfg f r g mid k c r') :
    c.freeOccurrences = c.occurrences :=
  Formula.free_occurrences_eq (Formula.contains_quantifier_distribute h.distributed)

/-- A variable of the normal form that was not free is one that the formula with variables apart
binds. -/
theorem bound_of_occurs (h : Stages cfg f r g mid k c r') (hreg : f.Registered r)
    (hv : v ∈ c.occurrences) (hfree : v.name ∉ f.freeNames) : v ∈ g.binders := by
  rcases h.skolemized.occurrences (fun _ h => absurd h List.not_mem_nil) v
    (h.mem_occurrences.1 hv) with hv | hv | hv
  · cases hv
  · rcases (h.apart hreg).1.occurrences_subset v hv with hv | hv
    · exact hv
    · exact absurd ((h.mem_free_names hreg).1 (List.mem_map_of_mem hv)) hfree
  · exact hv

/-- No name becomes free but those of universal variables, when their quantifiers are dropped. -/
theorem free_names_subset (h : Stages cfg f r g mid k c r') (hreg : f.Registered r)
    (hf : f.RangesInhabited) {name : String} (hname : name ∈ k.freeNames) : name ∈ f.freeNames := by
  rcases h.skolemized.free_names (fun _ h => absurd h List.not_mem_nil)
    (h.ranges_inhabited hreg hf) name hname with hname | hname
  · cases hname
  · exact (h.mem_free_names hreg).1 hname.1

theorem bound_not_free (h : Stages cfg f r g mid k c r') (hreg : f.Registered r)
    (hv : v ∈ g.binders) : v.name ∉ f.freeNames := fun hfree =>
  (h.apart hreg).2.2.1.not_free _ (List.mem_map_of_mem hv) ((h.mem_free_names hreg).2 hfree)

/-- A universal variable and an occurrence of its name in the normal form are one variable. -/
theorem eq_of_occurs (h : Stages cfg f r g mid k c r') (hreg : f.Registered r) {w : Variable}
    (hv : v ∈ k.binders) (hw : w ∈ c.occurrences) (hname : w.name = v.name) : w = v := by
  have hv := h.binders_subset hv
  refine Variable.eq_of_name_eq (h.apart hreg).2.2.1.nodup ?_ hv hname
  exact h.bound_of_occurs hreg hw (hname ▸ h.bound_not_free hreg hv)

/-! ## No model is lost -/

/-- A structure that satisfies the formula has a variant that satisfies the normal form for all
values in range of the universal variables. -/
theorem complete (h : Stages cfg f r g mid k c r') (hreg : f.Registered r)
    (hf : f.RangesInhabited) (M : Interpretation U) (s : Assignment U) :
    ∃ N, M.Variant N r r' ∧ (M.Holds s f → ∀ t, (∀ name ∈ f.freeNames, t name = s name) →
      (∀ v ∈ k.binders, N.InRange v (t v.name)) → N.Holds t c) := by
  obtain ⟨-, hg, hapart, -⟩ := h.apart hreg
  have hgrows := standardize_apart_grows h.standardized
  obtain ⟨N, hN, hk⟩ := h.skolemized.complete (.top hapart.nodup) (.top hg)
    (h.ranges_inhabited hreg hf) M s
  refine ⟨N, (Interpretation.Variant.refl M r mid).trans hgrows h.skolemized.grows hN,
    fun hM t ht hrange => h.holds_cnf.2 ?_⟩
  -- dropped quantifiers range over the values of `t`, and the rest depends on free names only
  refine Interpretation.holds_drop h.skolemized.shape.1 h.skolemized.shape.2 ?_ hrange
  refine (Interpretation.holds_congr_assignment fun name hname => ?_).1
    (hk s (fun _ _ => rfl) ((h.holds_apart hreg).2 hM))
  exact (ht name (h.free_names_subset hreg hf hname)).symm

/-- Values in range for some variables of the normal form extend to values in range for all
universal variables. -/
theorem exists_in_range (h : Stages cfg f r g mid k c r') (hreg : f.Registered r)
    (hf : f.RangesInhabited) {vs : List Variable} (hvs : vs ⊆ c.occurrences)
    (ht : ∀ v ∈ vs, v.name ∉ f.freeNames → M.InRange v (t v.name)) :
    ∃ t' : Assignment U, (∀ name, name ∈ names vs ∨ name ∈ f.freeNames → t' name = t name) ∧
      ∀ v ∈ k.binders, M.InRange v (t' v.name) := by
  -- `t` is kept at `vs`, and the other bound variables get any values in range
  let others := g.binders.filter fun v => !decide (v.name ∈ names vs)
  have hsub : List.Sublist others g.binders := List.filter_sublist
  have hother {v} : v ∈ others ↔ v ∈ g.binders ∧ v.name ∉ names vs := by
    simp [others]
  have hnodup := (h.apart hreg).2.2.1.nodup.sublist (hsub.map _)
  obtain ⟨t', ht'⟩ := Interpretation.exists_rebinds (M := M) (s := t) hnodup fun v hv =>
    h.ranges_inhabited hreg hf v (hsub.subset hv)
  have hkept {name} (hname : name ∈ names vs ∨ name ∈ f.freeNames) : t' name = t name := by
    refine ht'.1 name fun hmem => ?_
    obtain ⟨v, hv, rfl⟩ := List.mem_map.1 hmem
    obtain ⟨hbound, hnot⟩ := hother.1 hv
    exact hname.elim hnot (h.bound_not_free hreg hbound)
  refine ⟨t', fun name => hkept, fun v hv => ?_⟩
  have hbound := h.binders_subset hv
  by_cases hmem : v.name ∈ names vs
  · obtain ⟨w, hw, hname⟩ := List.mem_map.1 hmem
    rw [hkept (.inl hmem)]
    have hrange := ht w hw (hname ▸ h.bound_not_free hreg hbound)
    rwa [h.eq_of_occurs hreg hv (hvs hw) hname] at hrange
  · exact ht'.2 v (hother.2 ⟨hbound, hmem⟩)

/-! ## No model is invented -/

/-- A structure that satisfies the normal form for all values in range of the universal variables
satisfies the formula, when no universal quantifier was copied. -/
theorem sound (h : Stages cfg f r g mid k c r') (hreg : f.Registered r) (hf : f.RangesInhabited)
    (hcopies : f.toNnf.copiesUniversals = false)
    (hc : ∀ t, M.Rebinds k.binders s t → M.Holds t c) : M.Holds s f := by
  obtain ⟨hrenames, -, hapart, -⟩ := h.apart hreg
  have hinhabited := h.ranges_inhabited hreg hf
  have hbinders := h.binders_subset
  have hkapart : k.IsApart := by
    refine ⟨?_, fun name hname hfree => ?_⟩
    · rw [h.skolemized.binders_eq, Formula.nodup_expanded_universals_iff hapart.nodup,
        hrenames.copies_universals, hcopies]
    · obtain ⟨v, hv, rfl⟩ := List.mem_map.1 hname
      exact h.bound_not_free hreg (hbinders hv) (h.free_names_subset hreg hf hfree)
  refine (h.holds_apart hreg).1 (h.skolemized.sound (.top hapart.nodup) hinhabited ?_)
  exact Interpretation.holds_of_drop h.skolemized.shape.1 h.skolemized.shape.2 hkapart
    (fun v hv => hinhabited v (hbinders hv)) fun t ht => h.holds_cnf.1 (hc t ht)

end Stages

/-! ## Examples -/

namespace Sample

/-- There is a zero exactly if every `x` and some `p` add up to some `y`; both sides bind `x`, and
without the equivalence each of them stands there twice. -/
def balanced : Formula := .iff (.ex [x] (holding "S" [.var x])) mixed

/-- The numbers, with `A` and `B` as zero and one. -/
def numbers : Interpretation Nat where
  const name := if name = "A" then 0 else 1
  func _ as := as.headD 0
  pred q as := if q.name = "S" then as = [0] else ∃ n k, as = [n, n + k, k]

theorem numbers_have_zero (s : Assignment Nat) :
    numbers.Holds s (.ex [x] (holding "S" [.var x])) := by
  refine ⟨0, trivial, ?_⟩
  simp [numbers, holding, Interpretation.HoldsFor, Interpretation.Holds,
    Interpretation.HoldsAtom, Interpretation.value]

theorem numbers_have_sums (s : Assignment Nat) : numbers.Holds s mixed := by
  intro n _
  refine ⟨n + 0, trivial, 0, ⟨a, by decide, rfl⟩, ?_⟩
  simp [numbers, holding, Interpretation.HoldsFor, Interpretation.Holds,
    Interpretation.HoldsAtom, Interpretation.value, x, y, p]

/-- The normal form of `mixed`. -/
def mixedCnf : Formula :=
  let y : Term := .skolem "sk0" [.var x]
  .or (holding "R" [.var x, y, .const a]) (holding "R" [.var x, y, .const b])

theorem numbers_satisfy_mixed_cnf (t : Assignment Nat) : numbers.Holds t mixedCnf := by
  left
  simp [numbers, holding, Interpretation.Holds, Interpretation.HoldsAtom, Interpretation.value,
    x, a]

/-- Some of the two constants is related to everything, but neither is related to the other. -/
def rivals : Formula :=
  .and (.and (.ex [p] (.all [x] (holding "Q" [.var p, .var x])))
    (.not (holding "Q" [.const a, .const b]))) (.not (holding "Q" [.const b, .const a]))

/-- Its normal form, in which `x` is one variable. -/
def rivalsCnf : Formula :=
  .and (.and (.or (holding "Q" [.const a, .var x]) (holding "Q" [.const b, .var x]))
    (.not (holding "Q" [.const a, .const b]))) (.not (holding "Q" [.const b, .const a]))

end Sample

/-! ## Whole conversions -/

section Whole

variable {cfg : Config} {f c : Formula} {r : Registry} {M : Interpretation U} {s : Assignment U}

theorem mem_free_variables_names {name : String} :
    name ∈ names f.freeVariables ↔ name ∈ f.freeNames := by
  rw [Formula.mem_free_names_iff, List.mem_map]

/-- A conversion loses no model: a structure that satisfies the formula has a variant, changed on
minted symbols only, that satisfies the normal form with all values in range of its other
variables. -/
theorem to_cnf_complete (hreg : f.Registered r) (hf : f.RangesInhabited)
    (h : (f.toCnf cfg).outcome r = .ok c) (hM : M.Holds s f) :
    ∃ N, M.Variant N r ((f.toCnf cfg).after r) ∧ ∀ t, N.Completes f c s t → N.Holds t c := by
  obtain ⟨g, mid, k, hstages⟩ := to_cnf_stages (Attempt.yields_of_outcome h)
  obtain ⟨N, hN, hc⟩ := hstages.complete hreg hf M s
  refine ⟨N, hN, fun t ht => ?_⟩
  have hoccurs : c.freeVariables ⊆ c.occurrences := fun v hv =>
    hstages.free_occurrences_cnf ▸ Variable.mem_of_mem_distinct hv
  obtain ⟨t', hkept, hrange⟩ := hstages.exists_in_range hreg hf hoccurs fun v hv hfree =>
    ht.range v hv (by rwa [Variable.is_among_eq_false_iff, mem_free_variables_names])
  refine (Interpretation.holds_congr_assignment fun name hname => ?_).1 (hc hM t' ?_ hrange)
  · exact hkept name (.inl (mem_free_variables_names.2 hname))
  · intro name hname
    obtain ⟨v, hv, rfl⟩ := Formula.mem_free_names_iff.1 hname
    rw [hkept _ (.inr hname), ht.free v hv]

open Sample in
theorem to_cnf_complete_balanced :
    balanced.Registered registry ∧ balanced.RangesInhabited ∧ (∀ s, numbers.Holds s balanced) ∧
    ∃ c, (balanced.toCnf {}).outcome registry = .ok c ∧
      ∀ s, ∃ N, numbers.Variant N registry ((balanced.toCnf {}).after registry) ∧
        ∀ t, N.Completes balanced c s t → N.Holds t c := by
  have hreg : balanced.Registered registry := by decide
  have hinhabited : balanced.RangesInhabited := by decide
  have hholds (s : Assignment Nat) : numbers.Holds s balanced :=
    iff_of_true (numbers_have_zero s) (numbers_have_sums s)
  have hok : ((balanced.toCnf {}).outcome registry).isOk = true := by decide +kernel
  obtain ⟨c, hc⟩ := exists_ok_of_is_ok hok
  exact ⟨hreg, hinhabited, hholds, c, hc, fun s => to_cnf_complete hreg hinhabited hc (hholds s)⟩

/-- A conversion invents no model when it copies no universal quantifier: a structure that
satisfies the normal form with all values in range of its other variables satisfies the formula. -/
theorem to_cnf_sound (hreg : f.Registered r) (hf : f.RangesInhabited)
    (hcopies : f.toNnf.copiesUniversals = false) (h : (f.toCnf cfg).outcome r = .ok c)
    (hc : ∀ t, M.Completes f c s t → M.Holds t c) : M.Holds s f := by
  obtain ⟨g, mid, k, hstages⟩ := to_cnf_stages (Attempt.yields_of_outcome h)
  refine hstages.sound hreg hf hcopies fun t ht => hc t ⟨fun v hv => ?_, fun v hv hfree => ?_⟩
  · refine ht.1 v.name fun hbound => ?_
    obtain ⟨w, hw, hname⟩ := List.mem_map.1 hbound
    refine hstages.bound_not_free hreg (hstages.binders_subset hw) ?_
    exact Formula.mem_free_names_iff.2 ⟨v, hv, hname.symm⟩
  · have hv := hstages.free_occurrences_cnf ▸ Variable.mem_of_mem_distinct hv
    rw [Variable.is_among_eq_false_iff, mem_free_variables_names] at hfree
    -- a variable that occurs is free before quantifiers are dropped, or bound and so in range
    rcases Formula.free_or_bound (hstages.mem_occurrences.1 hv) with hfree' | hbound
    · exact absurd (hstages.free_names_subset hreg hf hfree') hfree
    · obtain ⟨w, hw, hname⟩ := List.mem_map.1 hbound
      exact hstages.eq_of_occurs hreg hw hv hname.symm ▸ ht.2 w hw

open Sample in
theorem to_cnf_sound_mixed :
    mixed.Registered registry ∧ mixed.RangesInhabited ∧ mixed.toNnf.copiesUniversals = false ∧
    (mixed.toCnf {}).outcome registry = .ok mixedCnf ∧
    (∀ s t, numbers.Completes mixed mixedCnf s t → numbers.Holds t mixedCnf) ∧
    ∀ s, numbers.Holds s mixed := by
  have hreg : mixed.Registered registry := by decide
  have hinhabited : mixed.RangesInhabited := by decide
  have hcopies : mixed.toNnf.copiesUniversals = false := by decide
  have hcnf : (mixed.toCnf {}).outcome registry = .ok mixedCnf := rfl
  exact ⟨hreg, hinhabited, hcopies, hcnf, fun _ t _ => numbers_satisfy_mixed_cnf t,
    fun s => to_cnf_sound hreg hinhabited hcopies hcnf fun t _ => numbers_satisfy_mixed_cnf t⟩

open Sample in
/-- A universal quantifier below a closed-world existential is copied, the copies share their
variable, and an unsatisfiable formula gets a satisfiable normal form. -/
theorem to_cnf_shares_universals :
    rivals.Registered registry ∧ rivals.RangesInhabited ∧
    (rivals.toCnf {}).outcome registry = .ok rivalsCnf ∧
      (∃ M : Interpretation Bool, ∀ t, M.Holds t rivalsCnf) ∧
      ∀ (U : Type) (M : Interpretation U) (s : Assignment U), ¬ M.Holds s rivals := by
  refine ⟨by decide, by decide, rfl, ⟨⟨fun name => name == "B", fun _ _ => true,
    fun _ as => ∃ v, as = [v, v]⟩, fun t => ?_⟩, fun U M s h => ?_⟩
  · simp [rivalsCnf, holding, Interpretation.Holds, Connective.Combines,
      Interpretation.HoldsAtom, Interpretation.value, a, b, x]
  · obtain ⟨⟨⟨_, ⟨c, hc, rfl⟩, hall⟩, hab⟩, hba⟩ := h
    rcases List.mem_pair.1 hc with rfl | rfl
    · exact hab (hall (M.const b.name) trivial)
    · exact hba (hall (M.const a.name) trivial)

end Whole

end Clausal
