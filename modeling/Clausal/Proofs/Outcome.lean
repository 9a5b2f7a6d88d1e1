import Clausal.Proofs.KnowledgeBase

/-!
# How conversions end

Each stage of a conversion delivers the shape that the next one has rules for, so a conversion fails
for reasons of its configuration only: `to_cnf_ends` lists them (`Refusal`), and says that the
result is in conjunctive normal form otherwise. `conversions_atomic` is about the registry: whatever
the point of failure, a failed conversion leaves it as it was, and a successful one makes it grow.
-/

namespace Clausal

variable {cfg : Config} {f g : Formula} {r r' : Registry} {e : Error}

/-! ## Refusals -/

/-- The reasons to refuse a formula that binds the variables `vs`: too many copies, or a Skolem
function where there may be none. -/
inductive Refusal (cfg : Config) (vs : List Variable) : Error → Prop where
  | expansion {required : Nat} : cfg.expansionLimit < required →
      Refusal cfg vs (.expansionTooLarge required cfg.expansionLimit)
  | skolemFunction {v : Variable} : cfg.skolemFunctions = false → v ∈ vs →
      v.isClosedWorld = false → Refusal cfg vs (.skolemFunctionUnsupported v.sourceName)

namespace Refusal

variable {vs ws : List Variable}

theorem mono (h : Refusal cfg vs e) (hsubset : vs ⊆ ws) : Refusal cfg ws e := by
  cases h with
  | expansion hlimit => exact .expansion hlimit
  | skolemFunction hoff hv hopen => exact .skolemFunction hoff (hsubset hv) hopen

/-- What is refused for copies is refused for the variables themselves, in the same words. -/
theorem of_copies (h : Refusal cfg ws e) (hcopies : List.Forall₂ Variable.Copies vs ws) :
    Refusal cfg vs e := by
  cases h with
  | expansion hlimit => exact .expansion hlimit
  | skolemFunction hoff hw hopen =>
      obtain ⟨v, hv, hdomain, hsource⟩ := exists_left_of_forall₂ hcopies hw
      rw [Variable.isClosedWorld, hdomain] at hopen
      rw [hsource]
      exact .skolemFunction hoff hv hopen

theorem ne_unsupported (h : Refusal cfg vs e) (shape : Shape) (stage : Stage) :
    e ≠ .unsupportedShape shape stage := by
  cases h <;> simp

end Refusal

/-! ## Failures of a walk -/

theorem skolem_term_fails {us : List Variable} {v : Variable}
    (h : (skolemTerm cfg us v).Fails r e) :
    cfg.skolemFunctions = false ∧ e = .skolemFunctionUnsupported v.sourceName := by
  unfold skolemTerm at h
  split at h
  · simp only [Attempt.fails_bind, Attempt.not_fails_action, Attempt.not_fails_pure, and_false,
      exists_false, or_self] at h
  · split at h
    · exact absurd h Attempt.not_fails_action
    · next hoff => exact ⟨by simpa using hoff, Attempt.fails_throw.1 h⟩

theorem skolem_terms_fails {us vs : List Variable} (h : (skolemTerms cfg us vs).Fails r e) :
    Refusal cfg vs e := by
  obtain ⟨v, hv, _, hfails⟩ := Attempt.exists_fails_of_map_m h
  simp only [Attempt.fails_bind, Attempt.not_fails_pure, and_false, exists_false,
    or_false] at hfails
  obtain ⟨hoff, rfl⟩ := skolem_term_fails hfails
  obtain ⟨hv, hopen⟩ := List.mem_filter.1 hv
  exact .skolemFunction hoff hv (by simpa using hopen)

theorem check_expansion_fails {vs : List Variable} {copies : Nat} {ds : List DomainOf}
    (h : (checkExpansion cfg copies ds).Fails r e) : Refusal cfg vs e := by
  unfold checkExpansion at h
  split at h
  · exact absurd h Attempt.not_fails_pure
  · dsimp only at h
    split at h
    · next hlimit =>
        simp only [Attempt.fails_bind, Attempt.not_fails_note, Attempt.yields_note,
          Attempt.fails_throw, Attempt.not_yields_throw, false_and, exists_false, false_or,
          or_false, exists_const, exists_eq_left] at h
        rw [h]
        exact .expansion hlimit
    · exact absurd h Attempt.not_fails_pure

/-- A walk down a negation normal form meets no shape it has no rule for. -/
theorem skolem_walk_fails {us : List Variable} {copies : Nat} {p : Pending} (hnnf : f.isNnf = true)
    (h : (f.skolemWalk cfg us copies p).Fails r e) : Refusal cfg f.binders e := by
  refine Formula.nnf_induction (P := fun f => ∀ us copies p r,
    (f.skolemWalk cfg us copies p).Fails r e → Refusal cfg f.binders e)
    ?atom ?not ?and ?or ?quant hnnf us copies p r h
  case atom | not =>
    intro a us copies p r h
    exact absurd h Attempt.not_fails_pure
  case and | or =>
    intro f g ihf ihg us copies p r h
    simp only [Formula.skolemWalk, Attempt.fails_bind, Attempt.not_fails_pure, and_false,
      exists_false, or_false] at h
    rcases h with h | ⟨_, _, _, h⟩
    · exact (ihf _ _ _ _ h).mono (List.subset_append_left ..)
    · exact (ihg _ _ _ _ h).mono (List.subset_append_right ..)
  case quant =>
    intro q vs f ih us copies p r h
    have hbody {us copies p r} (h : (f.skolemWalk cfg us copies p).Fails r e) :
        Refusal cfg (vs ++ f.binders) e :=
      (ih _ _ _ _ h).mono (List.subset_append_right ..)
    cases q with
    | all =>
        simp only [Formula.skolemWalk, Attempt.fails_bind, Attempt.not_fails_pure, and_false,
          exists_false, or_false] at h
        exact hbody h
    | ex =>
        simp only [Formula.skolemWalk, Attempt.fails_bind] at h
        -- a Skolem term is refused, or the number of copies, or something inside a copy; without
        -- copies it is inside the body
        rcases h with h | ⟨terms, _, _, h | ⟨n, _, _, h | ⟨instances, _, _, h⟩⟩⟩
        · exact (skolem_terms_fails h).mono (List.subset_append_left ..)
        · exact check_expansion_fails h
        · obtain ⟨_, _, _, h⟩ := Attempt.exists_fails_of_map_m h
          exact hbody h
        · split at h
          · exact absurd h Attempt.not_fails_pure
          · exact hbody h

/-! ## Whole conversions -/

/-- Without universal quantifiers a Skolemized formula is what distribution has rules for. -/
theorem exists_distribute_drop (hnnf : g.isNnf = true) (hex : g.containsExistential = false) :
    ∃ c, g.dropUniversals.distribute = .ok c :=
  Formula.exists_distribute (Formula.is_nnf_drop hnnf) (Formula.contains_quantifier_drop hex)

/-- A conversion that fails does so in Skolemization: the stages before it cannot fail, and the one
after it has a rule for what it is given. -/
theorem to_cnf_fails (h : (f.toCnf cfg).Fails r e) : Refusal cfg f.binders e := by
  simp only [Formula.toCnf, Formula.runConversion, Formula.reach, Formula.skolemize,
    Formula.to_nnf_eliminate_arrows, Attempt.fails_atomically, Attempt.fails_bind,
    Attempt.not_fails_note, Attempt.not_fails_action, Attempt.not_fails_pure,
    Attempt.fails_of_except, Attempt.yields_atomically, Attempt.yields_note,
    Attempt.yields_action, exists_const, exists_eq_left, and_false, exists_false, false_or,
    or_false] at h
  obtain ⟨g, mid, hrun, h | ⟨k, _, hskolem, hdistribute⟩⟩ := h
  · have hnnf : g.isNnf = true := (standardize_apart_is_nnf hrun).trans Formula.is_nnf_to_nnf
    have hrefused := (skolem_walk_fails hnnf h).of_copies (standardize_apart_copies hrun)
    exact hrefused.mono Formula.binders_signed_nnf_subset
  · have hshape := Skolemizes.shape ⟨1, hskolem⟩
    obtain ⟨c, hc⟩ := exists_distribute_drop hshape.1 hshape.2
    rw [hc] at hdistribute
    cases hdistribute

theorem to_cnf_is_cnf {c : Formula} (h : (f.toCnf cfg).Yields r c r') :
    c.isCnf = true ∧ c.containsQuantifier = false := by
  obtain ⟨g, mid, k, hstages⟩ := to_cnf_stages h
  exact ⟨Formula.is_cnf_distribute hstages.distributed,
    Formula.contains_quantifier_distribute hstages.distributed⟩

/-- The clauses of a conversion's result are always there to be taken out. -/
theorem to_cnf_extracts {c : Formula} (h : (f.toCnf cfg).Yields r c r') :
    ∃ cs, Clause.ofCnf c = .ok cs ∧ (f.toClauses cfg).Yields r cs r' := by
  obtain ⟨cs, hcs⟩ := Clause.exists_of_cnf (to_cnf_is_cnf h).1
  refine ⟨cs, hcs, ?_⟩
  simp only [Formula.toClauses, Attempt.yields_bind, Attempt.yields_of_except]
  exact ⟨c, r', h, hcs, rfl⟩

/-- Whatever the formula, the registry and the configuration, a conversion ends in a conjunctive
normal form without quantifiers, whose clauses can be taken out, or in one of two refusals. -/
theorem to_cnf_ends (cfg : Config) (f : Formula) (r : Registry) :
    match (f.toCnf cfg).outcome r with
    | .ok c => c.isCnf = true ∧ c.containsQuantifier = false ∧
        ∃ cs, Clause.ofCnf c = .ok cs ∧ (f.toClauses cfg).outcome r = .ok cs
    | .error e => Refusal cfg f.binders e ∧
        ∀ shape stage, e ≠ .unsupportedShape shape stage := by
  split
  · next c h =>
      have hyields := Attempt.yields_of_outcome h
      obtain ⟨hcnf, hquant⟩ := to_cnf_is_cnf hyields
      obtain ⟨cs, hcs, hclauses⟩ := to_cnf_extracts hyields
      exact ⟨hcnf, hquant, cs, hcs, hclauses.1⟩
  · next e h =>
      have hrefused := to_cnf_fails h
      exact ⟨hrefused, hrefused.ne_unsupported⟩

/-! ## Atomicity -/

/-- The attempt makes the registry grow when it succeeds, and leaves it alone when it fails. -/
structure Attempt.Atomic {α : Type} (x : Attempt α) : Prop where
  grows : ∀ {r : Registry} {a : α}, x.outcome r = .ok a → r.Grows (x.after r)
  restores : ∀ {r : Registry} {e : Error}, x.outcome r = .error e → x.after r = r

namespace Attempt.Atomic

variable {α β : Type} {x : Attempt α} {k : α → Except Error β}

/-- Under `atomically` only success matters. -/
theorem of_grows (h : ∀ {r a r'}, x.Yields r a r' → r.Grows r') : (atomically x).Atomic where
  grows := by
    intro r a hok
    have hyields := yields_atomically.1 (yields_of_outcome hok)
    exact h hyields
  restores := by
    intro r e herror
    rw [outcome_atomically] at herror
    rw [after_atomically, herror]

/-- What is done with the value of an atomic attempt must not fail. -/
theorem bind_of_ok (hx : x.Atomic) (hk : ∀ {r a}, x.outcome r = .ok a → ∃ b, k a = .ok b) :
    (x >>= fun a => ofExcept (k a)).Atomic where
  grows := by
    intro r b hok
    obtain ⟨a, ha, _⟩ := outcome_bind_eq_ok.1 hok
    rw [after_bind, ha]
    exact hx.grows ha
  restores := by
    intro r e herror
    rcases outcome_bind_eq_error.1 herror with herror | ⟨a, ha, herror⟩
    · rw [after_bind, herror]
      exact hx.restores herror
    · obtain ⟨b, hb⟩ := hk ha
      rw [outcome_of_except, hb] at herror
      cases herror

/-- However it ends, an atomic attempt leaves a registry that has grown. -/
theorem grows_after (hx : x.Atomic) (r : Registry) : r.Grows (x.after r) := by
  cases hrun : x.outcome r with
  | ok a => exact hx.grows hrun
  | error e =>
      rw [hx.restores hrun]
      exact .refl r

end Attempt.Atomic

theorem skolemize_atomic (cfg : Config) (f : Formula) : (f.skolemize cfg).Atomic :=
  .of_grows fun h => Skolemizes.grows ⟨1, h⟩

theorem to_cnf_atomic (cfg : Config) (f : Formula) : (f.toCnf cfg).Atomic := by
  apply Attempt.Atomic.of_grows
  intro r c r' h
  obtain ⟨_, _, _, hstages⟩ := to_cnf_stages (Attempt.yields_atomically.2 h)
  exact hstages.grows

/-- Clauses are taken out after the conversion has been committed, which cannot fail any more. -/
theorem to_clauses_atomic (cfg : Config) (f : Formula) : (f.toClauses cfg).Atomic := by
  apply (to_cnf_atomic cfg f).bind_of_ok
  intro r c h
  obtain ⟨cs, hcs, _⟩ := to_cnf_extracts (Attempt.yields_of_outcome h)
  exact ⟨cs, hcs⟩

theorem clausify_axioms_atomic (cfg : Config) : (clausifyAxioms cfg).Atomic := by
  apply Attempt.Atomic.of_grows
  intro r clauses r' h
  simp only [Attempt.yields_bind, Attempt.yields_get, Attempt.yields_pure,
    Attempt.yields_map_m] at h
  obtain ⟨_, _, ⟨rfl, rfl⟩, css, _, hconverts, _, rfl⟩ := h
  exact converts_grows hconverts

/-- Every conversion is atomic, and no conversion to clauses fails once its formula has been
converted to a normal form. -/
theorem conversions_atomic (cfg : Config) (f : Formula) :
    (f.skolemize cfg).Atomic ∧ (f.toCnf cfg).Atomic ∧ (f.toClauses cfg).Atomic ∧
      (clausifyAxioms cfg).Atomic ∧
      ∀ r c, (f.toCnf cfg).outcome r = .ok c → ∃ cs, (f.toClauses cfg).outcome r = .ok cs := by
  refine ⟨skolemize_atomic cfg f, to_cnf_atomic cfg f, to_clauses_atomic cfg f,
    clausify_axioms_atomic cfg, ?_⟩
  intro r c h
  obtain ⟨cs, _, hclauses⟩ := to_cnf_extracts (Attempt.yields_of_outcome h)
  exact ⟨cs, hclauses.1⟩

open Sample in
/-- A conversion that is refused after it has renamed a variable, and the same one with a limit that
it keeps within. -/
theorem conversions_atomic_balanced :
    (balanced.toCnf (.ofLimit 1)).outcome registry = .error (.expansionTooLarge 2 1) ∧
    ((balanced.runConversion (.ofLimit 1)).after registry).vars ≠ registry.vars ∧
    (balanced.toCnf (.ofLimit 1)).after registry = registry ∧
    ∃ c, (balanced.toCnf {}).outcome registry = .ok c ∧
      registry.Grows ((balanced.toCnf {}).after registry) ∧
      ∃ cs, (balanced.toClauses {}).outcome registry = .ok cs := by
  have hrefused : (balanced.toCnf (.ofLimit 1)).outcome registry =
      .error (.expansionTooLarge 2 1) := rfl
  have hok : ((balanced.toCnf {}).outcome registry).isOk = true := by decide +kernel
  obtain ⟨c, hc⟩ := exists_ok_of_is_ok hok
  obtain ⟨-, hstrict, -⟩ := conversions_atomic (.ofLimit 1) balanced
  obtain ⟨-, hatomic, -, -, hclauses⟩ := conversions_atomic {} balanced
  exact ⟨hrefused, by decide +kernel, hstrict.restores hrefused, c, hc, hatomic.grows hc,
    hclauses registry c hc⟩

end Clausal
