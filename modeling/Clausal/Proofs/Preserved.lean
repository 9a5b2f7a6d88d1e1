import Clausal.Normal.Conversion
import Clausal.Proofs.Apart
import Clausal.Proofs.Negation

/-!
# What conversions preserve

A conversion changes the registry in three ways only: it adds fresh copies of variables that its
formula binds, Skolem constants and Skolem functions. So what each of these changes preserves, a
whole conversion preserves (`to_cnf_preserves`, `clausify_axioms_preserves`).
-/

namespace Clausal

variable {α β : Type} {P : Registry → Prop}

/-- The action leads from registries with `P` to registries with `P`. -/
def Action.Preserves (P : Registry → Prop) (y : Action α) : Prop :=
  ∀ r a r', (y.run r).value = (a, r') → P r → P r'

namespace Attempt

/-- A success leads from registries with `P` to registries with `P`. -/
def Preserves (P : Registry → Prop) (x : Attempt α) : Prop :=
  ∀ r a r', x.Yields r a r' → P r → P r'

namespace Preserves

variable {x : Attempt α} {f : α → Attempt β}

theorem pure {a : α} : Preserves P (Pure.pure a : Attempt α) :=
  fun _ _ _ h hr => (yields_pure.1 h).2 ▸ hr

theorem throw {e : Error} : Preserves P (MonadExcept.throw e : Attempt α) :=
  fun _ _ _ h _ => absurd h not_yields_throw

theorem note {e : Event} : Preserves P (liftM (Clausal.note e) : Attempt Unit) :=
  fun _ _ _ h hr => yields_note.1 h ▸ hr

theorem get : Preserves P (MonadState.get : Attempt Registry) :=
  fun _ _ _ h hr => (yields_get.1 h).2 ▸ hr

theorem of_except {y : Except Error α} : Preserves P (ofExcept y) :=
  fun _ _ _ h hr => (yields_of_except.1 h).2 ▸ hr

theorem action {y : Action α} (hy : y.Preserves P) : Preserves P (liftM y : Attempt α) :=
  fun _ _ _ h => hy _ _ _ (yields_action.1 h)

theorem bind (hx : Preserves P x) (hf : ∀ a, Preserves P (f a)) : Preserves P (x >>= f) := by
  intro r b r' h hr
  obtain ⟨a, mid, hfirst, hsecond⟩ := yields_bind.1 h
  exact hf a _ _ _ hsecond (hx _ _ _ hfirst hr)

theorem atomically (hx : Preserves P x) : Preserves P (Attempt.atomically x) :=
  fun _ _ _ h => hx _ _ _ (yields_atomically.1 h)

theorem map_m {h : α → Attempt β} {xs : List α} (hsteps : ∀ x ∈ xs, Preserves P (h x)) :
    Preserves P (xs.mapM h) := by
  intro r ys r' hruns
  have hkeeps : (fun r r' => P r → P r') r r' := (yields_map_m.1 hruns).preserves
    (fun _ hr => hr) (fun hfirst hrest hr => hrest (hfirst hr)) hsteps
  exact hkeeps

end Preserves

end Attempt

/-! ## Standardizing apart -/

namespace Naming

/-- The action leads from registries with `P` to registries with `P`, whatever was seen. -/
def Preserves (P : Registry → Prop) (x : Naming α) : Prop :=
  ∀ st a st', x.Gives st a st' → P st.2 → P st'.2

namespace Preserves

variable {x : Naming α} {h : α → Naming β}

theorem pure {a : α} : Preserves P (Pure.pure a : Naming α) :=
  fun _ _ _ h hst => (gives_pure.1 h).2 ▸ hst

theorem bind (hx : Preserves P x) (hh : ∀ a, Preserves P (h a)) : Preserves P (x >>= h) := by
  intro st b st' hruns hst
  obtain ⟨a, mid, hfirst, hsecond⟩ := gives_bind.1 hruns
  exact hh a _ _ _ hsecond (hx _ _ _ hfirst hst)

theorem map_m {xs : List α} (hsteps : ∀ x ∈ xs, Preserves P (h x)) :
    Preserves P (xs.mapM h) := by
  intro st ys st' hruns
  have hkeeps : (fun st st' : NamingState => P st.2 → P st'.2) st st' :=
    (gives_map_m.1 hruns).preserves (fun _ hst => hst)
      (fun hfirst hrest hst => hrest (hfirst hst)) hsteps
  exact hkeeps

end Preserves

end Naming

theorem bind_apart_preserves {v : Variable} (hfresh : (freshVariable v).Preserves P) :
    (bindApart v).Preserves P := by
  have hget : Naming.Preserves P get := fun _ _ _ h hst => (Naming.gives_get.1 h).2 ▸ hst
  have hcopy : Naming.Preserves P (liftM (freshVariable v)) :=
    fun _ _ _ h => hfresh _ _ _ (Naming.gives_action.1 h).1
  have hsee (w : Variable) : Naming.Preserves P (modify (w.name :: ·)) := by
    intro st _ st' h hst
    rw [Naming.gives_modify.1 h]
    exact hst
  refine .bind hget fun seen => ?_
  dsimp only
  split
  · exact .bind hcopy fun w => .bind (hsee w) fun _ => .pure
  · exact .bind .pure fun w => .bind (hsee w) fun _ => .pure

variable {cfg : Config} {f : Formula} {us vs : List Variable} {n : Nat} {p : Pending}

theorem rename_apart_preserves {scope : Scope}
    (hfresh : ∀ v ∈ f.binders, (freshVariable v).Preserves P) :
    (f.renameApart scope).Preserves P := by
  induction f generalizing scope with
  | atom => exact .pure
  | not _ ih => exact .bind (ih hfresh) fun _ => .pure
  | binary _ _ _ ihf ihg =>
      obtain ⟨hf, hg⟩ := List.forall_mem_append.1 hfresh
      exact .bind (ihf hf) fun _ => .bind (ihg hg) fun _ => .pure
  | quant _ _ _ ih =>
      obtain ⟨hvs, hf⟩ := List.forall_mem_append.1 hfresh
      exact .bind (.map_m fun v hv => bind_apart_preserves (hvs v hv)) fun _ =>
        .bind (ih hf) fun _ => .pure

/-- Standardizing apart preserves what fresh copies of the bound variables preserve. -/
theorem standardize_apart_preserves (hfresh : ∀ v ∈ f.binders, (freshVariable v).Preserves P) :
    f.standardizeApart.Preserves P := by
  intro r g r' h
  obtain ⟨seen, hgives⟩ := Naming.gives_of_run h
  exact rename_apart_preserves hfresh _ _ _ hgives

/-! ## Skolemization -/

theorem skolem_term_preserves {v : Variable} (hconst : (mintConstant cfg.skolemPrefix).Preserves P)
    (hfunc : ∀ args, (mintFunction cfg.skolemPrefix args).Preserves P) :
    (skolemTerm cfg us v).Preserves P := by
  unfold skolemTerm
  split
  · exact .bind (.action hconst) fun _ => .pure
  · split
    · exact .action (hfunc _)
    · exact .throw

theorem check_expansion_preserves {ds : List DomainOf} : (checkExpansion cfg n ds).Preserves P := by
  unfold checkExpansion
  split
  · exact .pure
  · dsimp only
    split
    · exact .bind .note fun _ => .bind .throw fun _ => .pure
    · exact .pure

/-- A walk preserves what Skolem terms preserve. -/
theorem skolem_walk_preserves (hterm : ∀ us v, (skolemTerm cfg us v).Preserves P) :
    (f.skolemWalk cfg us n p).Preserves P := by
  induction f generalizing us n p with
  | atom => exact .pure
  | not f _ =>
      cases f with
      | atom => exact .pure
      | not | binary | quant => exact .throw
  | binary c f g ihf ihg =>
      cases c with
      | and | or => exact .bind ihf fun _ => .bind ihg fun _ => .pure
      | implies | iff => exact .throw
  | quant q vs f ih =>
      cases q with
      | all => exact .bind ih fun _ => .pure
      | ex =>
          have hterms : (skolemTerms cfg us vs).Preserves P :=
            .map_m fun v _ => .bind (hterm us v) fun _ => .pure
          refine .bind hterms fun _ => .bind check_expansion_preserves fun _ => ?_
          refine .bind (.map_m fun _ _ => ih) fun _ => ?_
          split
          · exact .pure
          · exact ih

/-! ## Whole conversions -/

/-- A conversion preserves what fresh copies of the variables it binds and Skolem terms preserve. -/
theorem to_cnf_preserves (hfresh : ∀ v ∈ f.binders, (freshVariable v).Preserves P)
    (hterm : ∀ us v, (skolemTerm cfg us v).Preserves P) : (f.toCnf cfg).Preserves P := by
  have hapart : f.toNnf.standardizeApart.Preserves P := standardize_apart_preserves fun v hv =>
    hfresh v (Formula.binders_signed_nnf_subset hv)
  unfold Formula.toCnf
  simp only [Formula.runConversion, Formula.to_nnf_eliminate_arrows]
  refine .atomically (.bind .note fun _ => .bind .note fun _ => .bind .note fun _ => ?_)
  refine .bind (.action hapart) fun g => .bind .note fun _ => ?_
  refine .bind (.atomically (skolem_walk_preserves hterm)) fun k => .bind .note fun _ => ?_
  exact .bind .of_except fun _ => .bind .note fun _ => .pure

theorem to_clauses_preserves (hfresh : ∀ v ∈ f.binders, (freshVariable v).Preserves P)
    (hterm : ∀ us v, (skolemTerm cfg us v).Preserves P) : (f.toClauses cfg).Preserves P :=
  .bind (to_cnf_preserves hfresh hterm) fun _ => .of_except

/-- The axioms are those of the registry that the conversion starts from. -/
theorem clausify_axioms_preserves
    (hfresh : ∀ r, P r → ∀ f ∈ r.axioms, ∀ v ∈ f.binders, (freshVariable v).Preserves P)
    (hterm : ∀ us v, (skolemTerm cfg us v).Preserves P) : (clausifyAxioms cfg).Preserves P := by
  intro r clauses r' h hr
  simp only [clausifyAxioms, Attempt.yields_atomically, Attempt.yields_bind, Attempt.yields_get,
    Attempt.yields_pure] at h
  obtain ⟨_, _, ⟨hread, hkept⟩, css, _, hruns, rfl, rfl⟩ := h
  rw [hread, hkept] at hruns
  have hpreserves : (r.axioms.mapM (Formula.toClauses cfg)).Preserves P :=
    .map_m fun f hf => to_clauses_preserves (hfresh r hr f hf) hterm
  exact hpreserves _ _ _ hruns hr

end Clausal
