import Clausal.Proofs.Conversion
import Clausal.Proofs.Preserved

/-!
# Conversions under more liberal configurations

A configuration is consulted to refuse something, and a conversion that succeeds is not refused
anything. Under a configuration that refuses less it takes the same steps and mints the same symbols
(`to_cnf_relaxed`). Where Skolem functions are refused, none is minted.
-/

namespace Clausal

/-- The second configuration mints the same names and refuses nothing that the first one allows. -/
structure Config.Relaxes (cfg cfg' : Config) : Prop where
  skolemPrefix : cfg'.skolemPrefix = cfg.skolemPrefix
  limit : cfg.expansionLimit ≤ cfg'.expansionLimit
  functions : cfg.skolemFunctions = true → cfg'.skolemFunctions = true

/-! ## Attempts that do at least as much -/

namespace Attempt

variable {α β : Type} {x y : Attempt α} {h l : α → Attempt β}

/-- From wherever `x` succeeds, `y` succeeds in the same way. -/
def Refines (x y : Attempt α) : Prop :=
  ∀ r a r', x.Yields r a r' → y.Yields r a r'

namespace Refines

theorem refl (x : Attempt α) : x.Refines x := fun _ _ _ h => h

theorem throw {e : Error} : Refines (MonadExcept.throw e) y :=
  fun _ _ _ h => absurd h not_yields_throw

theorem bind (hx : x.Refines y) (hh : ∀ a, (h a).Refines (l a)) :
    (x >>= h).Refines (y >>= l) := by
  intro r b r' hruns
  obtain ⟨a, mid, hfirst, hsecond⟩ := yields_bind.1 hruns
  exact yields_bind.2 ⟨a, mid, hx _ _ _ hfirst, hh a _ _ _ hsecond⟩

theorem atomically (hx : x.Refines y) : (Attempt.atomically x).Refines (Attempt.atomically y) :=
  fun _ _ _ h => yields_atomically.2 (hx _ _ _ (yields_atomically.1 h))

theorem map_m {xs : List α} (hsteps : ∀ x ∈ xs, (h x).Refines (l x)) :
    (xs.mapM h).Refines (xs.mapM l) := by
  intro r ys r' hruns
  exact yields_map_m.2 ((yields_map_m.1 hruns).mono hsteps)

end Refines

end Attempt

variable {cfg cfg' : Config} {f c : Formula} {r : Registry}

/-! ## Skolemization -/

section Skolemization

variable {us vs : List Variable} {n : Nat} {p : Pending}

theorem skolem_term_refines (h : cfg.Relaxes cfg') (v : Variable) :
    (skolemTerm cfg us v).Refines (skolemTerm cfg' us v) := by
  unfold skolemTerm
  rw [h.skolemPrefix]
  split
  · exact .refl _
  · split
    · next hon =>
        rw [if_pos (h.functions hon)]
        exact .refl _
    · exact .throw

theorem skolem_terms_refines (h : cfg.Relaxes cfg') :
    (skolemTerms cfg us vs).Refines (skolemTerms cfg' us vs) :=
  .map_m fun v _ => .bind (skolem_term_refines h v) fun _ => .refl _

/-- A number of copies within the lower limit is within the higher one. -/
theorem check_expansion_refines (h : cfg.Relaxes cfg') (ds : List DomainOf) :
    (checkExpansion cfg n ds).Refines (checkExpansion cfg' n ds) := by
  unfold checkExpansion
  split
  · exact .refl _
  · dsimp only
    intro r k r' hyields
    split at hyields
    · simp only [Attempt.yields_bind, Attempt.not_yields_throw, false_and, and_false,
        exists_false] at hyields
    · next hwithin =>
        have hlimit := h.limit
        rw [if_neg (by omega)]
        exact hyields

/-- A walk that is not refused anything goes the same way when less is refused. -/
theorem skolem_walk_refines (h : cfg.Relaxes cfg') :
    (f.skolemWalk cfg us n p).Refines (f.skolemWalk cfg' us n p) := by
  induction f generalizing us n p with
  | atom => exact .refl _
  | not f _ => cases f <;> exact .refl _
  | binary c f g ihf ihg =>
      cases c with
      | and | or => exact .bind ihf fun _ => .bind ihg fun _ => .refl _
      | implies | iff => exact .refl _
  | quant q vs f ih =>
      cases q with
      | all => exact .bind ih fun _ => .refl _
      | ex =>
          refine .bind (skolem_terms_refines h) fun terms => ?_
          refine .bind (check_expansion_refines h _) fun copies => ?_
          refine .bind (.map_m fun choice _ => ih) fun instances => ?_
          split
          · exact .refl _
          · exact ih

/-! ## Skolem functions switched off -/

/-- Without Skolem functions only constants are minted. -/
theorem skolem_term_keeps_skolems {ss : List SkolemSymbol} (hoff : cfg.skolemFunctions = false)
    (v : Variable) : (skolemTerm cfg us v).Preserves fun r => r.skolemSymbols = ss := by
  unfold skolemTerm
  split
  · refine .bind (.action fun r c r' h hr => ?_) fun _ => .pure
    have hadds := mint_constant_run h
    rw [hadds.skolems_eq, List.append_nil, hr]
  · rw [if_neg (by simp [hoff])]
    exact .throw

theorem fresh_variable_keeps_skolems {ss : List SkolemSymbol} (v : Variable) :
    (freshVariable v).Preserves fun r => r.skolemSymbols = ss := by
  intro r w r' h hr
  obtain ⟨_, _, hadds⟩ := fresh_variable_run h
  rw [hadds.skolems_eq, List.append_nil, hr]

end Skolemization

/-! ## Whole conversions -/

/-- Only Skolemization looks at the configuration. -/
theorem to_cnf_refines (h : cfg.Relaxes cfg') (f : Formula) :
    (f.toCnf cfg).Refines (f.toCnf cfg') := by
  unfold Formula.toCnf Formula.runConversion
  refine .atomically (.bind (.refl _) fun _ => .bind (.refl _) fun _ => .bind (.refl _) fun _ => ?_)
  refine .bind (.refl _) fun g => .bind (.refl _) fun _ => ?_
  exact .bind (.atomically (skolem_walk_refines h)) fun _ => .refl _

/-- What succeeds under a configuration has the same result and leaves the same registry under a
configuration that refuses less. A success without Skolem functions mints none. -/
theorem to_cnf_relaxed (h : cfg.Relaxes cfg') (hok : (f.toCnf cfg).outcome r = .ok c) :
    (f.toCnf cfg').outcome r = .ok c ∧ (f.toCnf cfg').after r = (f.toCnf cfg).after r ∧
      (cfg.skolemFunctions = false →
        ((f.toCnf cfg).after r).skolemSymbols = r.skolemSymbols) := by
  have hyields : (f.toCnf cfg).Yields r c ((f.toCnf cfg).after r) := Attempt.yields_of_outcome hok
  obtain ⟨houtcome, hafter⟩ := to_cnf_refines h f _ _ _ hyields
  refine ⟨houtcome, hafter, fun hoff => ?_⟩
  have hkeeps : (f.toCnf cfg).Preserves fun r' => r'.skolemSymbols = r.skolemSymbols :=
    to_cnf_preserves (fun v _ => fresh_variable_keeps_skolems v)
      fun us v => skolem_term_keeps_skolems hoff v
  exact hkeeps _ _ _ hyields rfl

/-- Some `y` and some `p` are related to a free `x`. -/
def Sample.related : Formula := .ex [y, p] (holding "R" [.var x, .var y, .var p])

open Sample in
/-- Two copies and a Skolem constant are allowed by the limit and without Skolem functions. -/
theorem to_cnf_relaxed_related :
    let strict : Config := { expansionLimit := 2, skolemFunctions := false }
    strict.Relaxes {} ∧ ∃ c, (related.toCnf strict).outcome registry = .ok c ∧
      (related.toCnf {}).outcome registry = .ok c ∧
      (related.toCnf {}).after registry = (related.toCnf strict).after registry ∧
      ((related.toCnf strict).after registry).consts = [a, b, ⟨"sk0"⟩] ∧
      ((related.toCnf strict).after registry).skolemSymbols = [] := by
  intro strict
  have hrelaxes : strict.Relaxes {} := ⟨rfl, by decide, fun _ => rfl⟩
  have hok : ((related.toCnf strict).outcome registry).isOk = true := by decide +kernel
  obtain ⟨c, hc⟩ := exists_ok_of_is_ok hok
  obtain ⟨houtcome, hafter, hskolems⟩ := to_cnf_relaxed hrelaxes hc
  exact ⟨hrelaxes, c, hc, houtcome, hafter, by decide +kernel, hskolems rfl⟩

end Clausal
