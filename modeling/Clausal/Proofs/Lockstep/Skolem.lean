import Clausal.Proofs.Lockstep
import Clausal.Proofs.Skolem.Result

/-!
# Skolemization in two runs

A walk mints Skolem symbols in the order in which it comes to the existentials, and counts copies by
the sizes of domains; neither depends on names. `SameWalk` says that two walks have the same task
but for names, and `walks_alike` that they come to the same end: one error, or results that match.
-/

namespace Clausal

open Registry (GrowAlike)

namespace Starts

variable {w : Starts} {cfg : Config} {r₁ r₂ m₁ m₂ : Registry} {us us' vs vs' : List Variable}
  {v v' : Variable}

/-- Several terms with the new names of their symbols. -/
abbrev renameTerms (ρ : String → String) : List Term → List Term := List.map (Term.rename ρ)

/-! ## Skolem terms -/

theorem mint_constant_lockstep {base : String} (hreach : w.Reach r₁ r₂) :
    w.Lockstep Constant.rename (liftM (mintConstant base)) (liftM (mintConstant base)) r₁ r₂ := by
  obtain ⟨c₁, m₁, hrun₁⟩ : ∃ c m, ((mintConstant base).run r₁).value = (c, m) := ⟨_, _, rfl⟩
  obtain ⟨c₂, m₂, hrun₂⟩ : ∃ c m, ((mintConstant base).run r₂).value = (c, m) := ⟨_, _, rfl⟩
  have hadds₁ := mint_constant_run hrun₁
  have hadds₂ := mint_constant_run hrun₂
  have halike := hadds₁.grow_alike hadds₂ rfl rfl rfl
  refine .inr ⟨c₁, m₁, c₂, m₂, Attempt.yields_action.2 hrun₁, Attempt.yields_action.2 hrun₂,
    halike, ?_⟩
  intro ρ hρ
  have hcarried := (hρ.split hreach halike).2.consts
  rw [hadds₁.consts, hadds₂.consts] at hcarried
  exact congrArg Constant.mk (List.cons.inj hcarried).1

theorem mint_function_lockstep {base : String} {args args' : List Term} (hreach : w.Reach r₁ r₂)
    (hargs : w.Mates renameTerms args args' r₁ r₂) :
    w.Lockstep Term.rename (liftM (mintFunction base args)) (liftM (mintFunction base args'))
      r₁ r₂ := by
  obtain ⟨t₁, m₁, hrun₁⟩ : ∃ t m, ((mintFunction base args).run r₁).value = (t, m) :=
    ⟨_, _, rfl⟩
  obtain ⟨t₂, m₂, hrun₂⟩ : ∃ t m, ((mintFunction base args').run r₂).value = (t, m) :=
    ⟨_, _, rfl⟩
  obtain ⟨name₁, rfl, hadds₁⟩ := mint_function_run hrun₁
  obtain ⟨name₂, rfl, hadds₂⟩ := mint_function_run hrun₂
  have halike := hadds₁.grow_alike hadds₂ rfl rfl rfl
  refine .inr ⟨_, m₁, _, m₂, Attempt.yields_action.2 hrun₁, Attempt.yields_action.2 hrun₂,
    halike, ?_⟩
  intro ρ hρ
  have hcarried := (hρ.split hreach halike).2.skolems
  rw [hadds₁.skolems, hadds₂.skolems] at hcarried
  have hname : ρ name₁ = name₂ := (List.cons.inj hcarried).1
  have hargs : args.map (Term.rename ρ) = args' := hargs.later hreach halike ρ hρ
  rw [Term.rename, Term.rename_all_eq, hname, hargs]

theorem skolem_term_lockstep (hreach : w.Reach r₁ r₂) (hus : w.Mates renameVars us us' r₁ r₂)
    (hsource : v'.sourceName = v.sourceName) :
    w.Lockstep Term.rename (skolemTerm cfg us v) (skolemTerm cfg us' v') r₁ r₂ := by
  have hempty : us'.isEmpty = us.isEmpty := by
    rw [← hus _ (matches_transfer hreach), List.isEmpty_map]
  unfold skolemTerm
  rw [hempty]
  split
  · refine (mint_constant_lockstep hreach).bind ?_
    intro c m₁ c' m₂ _ _ hmates
    exact .pure fun ρ hρ => congrArg Term.const (hmates ρ hρ)
  · split
    · refine mint_function_lockstep hreach ?_
      intro ρ hρ
      rw [← hus ρ hρ]
      simp [Term.rename, Function.comp_def]
    · rw [hsource]
      exact .throw _

/-- The open variables of matching quantifiers get matching Skolem terms. -/
theorem skolem_terms_lockstep (hreach : w.Reach r₁ r₂) (hus : w.Mates renameVars us us' r₁ r₂)
    (hvs : w.Mates renameVars vs vs' r₁ r₂)
    (hsources : ∀ v ∈ vs, ∀ ρ, w.Matches ρ r₁ r₂ → (v.rename ρ).sourceName = v.sourceName) :
    w.Lockstep Pending.rename (skolemTerms cfg us vs) (skolemTerms cfg us' vs') r₁ r₂ := by
  have hmatch := matches_transfer hreach
  obtain rfl := hvs _ hmatch
  unfold skolemTerms
  rw [List.filter_map]
  have hopen : (fun v : Variable => !v.isClosedWorld) ∘ Variable.rename
      (Registry.transfer w.left w.right r₁ r₂) = fun v => !v.isClosedWorld := by
    funext v
    simp
  rw [hopen]
  apply Lockstep.map_m hreach
  rw [List.forall₂_map_right_iff, List.forall₂_same]
  intro v hv m₁ m₂ halike
  have hv := (List.mem_filter.1 hv).1
  refine (skolem_term_lockstep (hreach.trans halike) (hus.later hreach halike)
    (hsources v hv _ hmatch)).bind ?_
  intro t l₁ t' l₂ _ halike' hterm
  refine .pure ?_
  intro ρ hρ
  have hearlier := (hρ.split (hreach.trans halike) halike').1.split hreach halike
  exact Prod.ext (hvs.of_mem hv ρ hearlier.1) (hterm ρ hρ)

/-- Copies are counted by the sizes of domains, whatever the names. -/
theorem check_expansion_lockstep {ρ : String → String} {n : Nat} {ds : List DomainOf} :
    w.Lockstep (fun _ k => k) (checkExpansion cfg n ds)
      (checkExpansion cfg n (ds.map (renameDomain ρ))) r₁ r₂ := by
  have hsizes : (ds.map (renameDomain ρ)).map (·.2.length) = ds.map (·.2.length) := by
    simp [renameDomain]
  unfold checkExpansion
  rw [List.isEmpty_map, hsizes]
  split
  · exact .pure fun _ _ => rfl
  · dsimp only
    split
    · exact .inl ⟨.expansionTooLarge (countCopies n (ds.map (·.2.length))) cfg.expansionLimit,
        by simp, by simp⟩
    · exact .pure fun _ _ => rfl

/-! ## Walks -/

/-- Two walks whose tasks match: the first has to do with known symbols only, and the second is the
same but for names. -/
structure SameWalk (w : Starts) (us us' : List Variable) (p p' : Pending) (f f' : Formula)
    (r₁ r₂ : Registry) : Prop where
  within : WalkWithin (w.known r₁) us p f
  keys : ∀ xb ∈ p, xb.1.symbols ⊆ w.known r₁
  sources : ∀ v ∈ f.binders, ∀ ρ, w.Matches ρ r₁ r₂ → (v.rename ρ).sourceName = v.sourceName
  universals : w.Mates renameVars us us' r₁ r₂
  pending : w.Mates Pending.rename p p' r₁ r₂
  formula : w.Mates Formula.rename f f' r₁ r₂

namespace SameWalk

variable {p p' q q' : Pending} {f f' g g' : Formula} {a a' : Atom} {c : Connective}
  {quant : Quantifier}

theorem later (h : w.SameWalk us us' p p' f f' r₁ r₂) (hreach : w.Reach r₁ r₂)
    (halike : GrowAlike r₁ r₂ m₁ m₂) : w.SameWalk us us' p p' f f' m₁ m₂ where
  within := h.within.mono (known_mono hreach.left halike.left)
  keys := fun xb hxb => List.Subset.trans (h.keys xb hxb) (known_mono hreach.left halike.left)
  sources := fun v hv ρ hρ => h.sources v hv ρ (hρ.split hreach halike).1
  universals := h.universals.later hreach halike
  pending := h.pending.later hreach halike
  formula := h.formula.later hreach halike

theorem not (h : w.SameWalk us us' p p' (.not f) (.not f') r₁ r₂) :
    w.SameWalk us us' p p' f f' r₁ r₂ where
  within := ⟨h.within.formula, h.within.universals, h.within.terms⟩
  keys := h.keys
  sources := h.sources
  universals := h.universals
  pending := h.pending
  formula := fun ρ hρ => Formula.not.inj (h.formula ρ hρ)

theorem left (h : w.SameWalk us us' p p' (.binary c f g) (.binary c f' g') r₁ r₂) :
    w.SameWalk us us' p p' f f' r₁ r₂ where
  within := h.within.left
  keys := h.keys
  sources := fun v hv => h.sources v (List.mem_append_left _ hv)
  universals := h.universals
  pending := h.pending
  formula := fun ρ hρ => (Formula.binary.inj (h.formula ρ hρ)).2.1

theorem right (h : w.SameWalk us us' p p' (.binary c f g) (.binary c f' g') r₁ r₂) :
    w.SameWalk us us' p p' g g' r₁ r₂ where
  within := h.within.right
  keys := h.keys
  sources := fun v hv => h.sources v (List.mem_append_right _ hv)
  universals := h.universals
  pending := h.pending
  formula := fun ρ hρ => (Formula.binary.inj (h.formula ρ hρ)).2.2

theorem bound_mates (h : w.SameWalk us us' p p' (.quant quant vs f) (.quant quant vs' f') r₁ r₂) :
    w.Mates renameVars vs vs' r₁ r₂ :=
  fun ρ hρ => (Formula.quant.inj (h.formula ρ hρ)).2.1

/-- The tasks at the atoms. -/
theorem apply (h : w.SameWalk us us' p p' (.atom a) (.atom a') r₁ r₂) (hreach : w.Reach r₁ r₂) :
    w.Mates Atom.rename (p.apply a) (p'.apply a') r₁ r₂ := by
  intro ρ hρ
  have hatom : a.rename ρ = a' := Formula.atom.inj (h.formula ρ hρ)
  rw [Pending.rename_apply (hρ.separates hreach) h.within.formula h.within.terms h.keys, hatom,
    h.pending ρ hρ]

/-- The tasks below a quantifier, which holds back what is pending for its variables. -/
theorem body (h : w.SameWalk us us' p p' (.quant quant vs f) (.quant quant vs' f') r₁ r₂)
    (hreach : w.Reach r₁ r₂) : w.SameWalk us us' (p.below vs) (p'.below vs') f f' r₁ r₂ where
  within := h.within.body
  keys := fun xb hxb => h.keys xb (Pending.below_subset hxb)
  sources := fun v hv => h.sources v (List.mem_append_right _ hv)
  universals := h.universals
  pending := by
    intro ρ hρ
    have hvs : vs.map (Variable.rename ρ) = vs' := h.bound_mates ρ hρ
    rw [Pending.rename_below (hρ.separates hreach) h.keys h.within.bound, h.pending ρ hρ, hvs]
  formula := fun ρ hρ => (Formula.quant.inj (h.formula ρ hρ)).2.2

/-- Variables of a universal quantifier join those further out. -/
theorem enter (h : w.SameWalk us us' p p' f f' r₁ r₂) (hvs : ∀ v ∈ vs, v.symbols ⊆ w.known r₁)
    (hmates : w.Mates renameVars vs vs' r₁ r₂) :
    w.SameWalk (us ++ vs) (us' ++ vs') p p' f f' r₁ r₂ where
  within := h.within.enter hvs
  keys := h.keys
  sources := h.sources
  universals := fun ρ hρ =>
    List.map_append.trans (congrArg₂ List.append (h.universals ρ hρ) (hmates ρ hρ))
  pending := h.pending
  formula := h.formula

/-- More replacements may become pending. -/
theorem extend (h : w.SameWalk us us' p p' f f' r₁ r₂) (hterms : q.symbols ⊆ w.known r₁)
    (hkeys : ∀ xb ∈ q, xb.1.symbols ⊆ w.known r₁) (hmates : w.Mates Pending.rename q q' r₁ r₂) :
    w.SameWalk us us' (p ++ q) (p' ++ q') f f' r₁ r₂ where
  within := h.within.extend hterms
  keys := List.forall_mem_append.2 ⟨h.keys, hkeys⟩
  sources := h.sources
  universals := h.universals
  pending := by
    intro ρ hρ
    rw [Pending.rename_append, h.pending ρ hρ, hmates ρ hρ]
  formula := h.formula

end SameWalk

/-- The tasks at the body of an existential, with Skolem terms for its open variables. -/
theorem SameWalk.terms {p p' terms terms' : Pending} {f f' : Formula}
    (h : w.SameWalk us us' p p' (.ex vs f) (.ex vs' f') r₁ r₂) (hreach : w.Reach r₁ r₂)
    (halike : GrowAlike r₁ r₂ m₁ m₂)
    (hterms : MintsTerms us (vs.filter fun v => !v.isClosedWorld) r₁ terms m₁)
    (hmates : w.Mates Pending.rename terms terms' m₁ m₂) :
    w.SameWalk us us' (p.below vs ++ terms) (p'.below vs' ++ terms') f f' m₁ m₂ := by
  have hlater := h.later hreach halike
  refine ((h.body hreach).later hreach halike).extend ?_ ?_ hmates
  · exact hterms.symbols_subset hlater.within.universals
      (added_subset_known hreach.left halike.left)
  · intro xb hxb
    have hmem : xb.1 ∈ terms.map (·.1) := List.mem_map_of_mem hxb
    rw [hterms.map_fst] at hmem
    exact hlater.within.bound xb.1 (List.mem_filter.1 hmem).1

/-- The tasks at one of the copies that domains make of the body. -/
theorem SameWalk.choose {p p' choice : Pending} {f f' : Formula} {ρ₀ : String → String}
    (h : w.SameWalk us us' p p' f f' r₁ r₂) (hvs : ∀ v ∈ vs, v.symbols ⊆ w.known r₁)
    (hmates : w.Mates renameVars vs (renameVars ρ₀ vs) r₁ r₂)
    (hchoice : choice ∈ choices (closedWorld vs)) :
    w.SameWalk us us' (p ++ choice) (p' ++ choice.rename ρ₀) f f' r₁ r₂ := by
  have hcopy : choice ∈ copiesOf vs := copies_of_ne_nil (List.ne_nil_of_mem hchoice) ▸ hchoice
  refine h.extend (choice_symbols_subset hvs hcopy) ?_ ?_
  · intro xb hxb
    exact hvs xb.1 (copy_chooses hcopy hxb).1
  · intro ρ hρ
    have hsame : vs.map (Variable.rename ρ) = vs.map (Variable.rename ρ₀) := hmates ρ hρ
    have hchoices := congrArg (fun vs => choices (closedWorld vs)) hsame
    simp only [closed_world_rename, choices_rename] at hchoices
    exact List.map_inj_left.1 hchoices choice hchoice

/-- Walks down `f` with matching tasks come to the same end. -/
def WalksAlike (w : Starts) (cfg : Config) (f : Formula) : Prop :=
  ∀ {us us' p p' f'} (n) {r₁ r₂}, w.Reach r₁ r₂ → w.SameWalk us us' p p' f f' r₁ r₂ →
    w.Lockstep Formula.rename (f.skolemWalk cfg us n p) (f'.skolemWalk cfg us' n p') r₁ r₂

/-- The copies of a body are made one by one, or the body itself is walked when there are none. -/
theorem copies_lockstep {p p' : Pending} {f f' : Formula} {n : Nat} (hf : w.WalksAlike cfg f)
    (hreach : w.Reach r₁ r₂) (h : w.SameWalk us us' p p' f f' r₁ r₂)
    (hvs : ∀ v ∈ vs, v.symbols ⊆ w.known r₁) (hmates : w.Mates renameVars vs vs' r₁ r₂) :
    w.Lockstep Formula.rename
      (do
        let instances ← (choices (closedWorld vs)).mapM fun choice =>
          f.skolemWalk cfg us n (p ++ choice)
        match Formula.disjunction instances with
        | some g => return g
        | none => f.skolemWalk cfg us n p)
      (do
        let instances ← (choices (closedWorld vs')).mapM fun choice =>
          f'.skolemWalk cfg us' n (p' ++ choice)
        match Formula.disjunction instances with
        | some g => return g
        | none => f'.skolemWalk cfg us' n p') r₁ r₂ := by
  have hcopies : List.Forall₂ (fun choice choice' => ∀ m₁ m₂, GrowAlike r₁ r₂ m₁ m₂ →
      w.Lockstep Formula.rename (f.skolemWalk cfg us n (p ++ choice))
        (f'.skolemWalk cfg us' n (p' ++ choice')) m₁ m₂)
      (choices (closedWorld vs)) (choices (closedWorld vs')) := by
    obtain rfl := hmates _ (matches_transfer hreach)
    rw [closed_world_rename, choices_rename, List.forall₂_map_right_iff, List.forall₂_same]
    intro choice hchoice m₁ m₂ halike
    exact hf n (hreach.trans halike)
      ((h.choose hvs hmates hchoice).later hreach halike)
  refine (Lockstep.map_m hreach hcopies).bind ?_
  intro gs m₁ gs' m₂ _ halike hgs
  have hreach' := hreach.trans halike
  obtain rfl := hgs _ (matches_transfer hreach')
  rw [Formula.disjunction_rename]
  cases hjoin : Formula.disjunction gs with
  | none =>
      -- a domain was empty, and both walks go on with the body itself
      exact hf n hreach' (h.later hreach halike)
  | some g =>
      refine .pure ?_
      intro ρ hρ
      have hsame := congrArg Formula.disjunction (hgs ρ hρ)
      simp only [Formula.disjunction_rename, hjoin, Option.map_some, Option.some.injEq] at hsame
      exact hsame

/-- Walks down a negation normal form come to the same end when their tasks match. -/
theorem walks_alike {f : Formula} (hnnf : f.isNnf = true) : w.WalksAlike cfg f := by
  refine Formula.nnf_induction (P := w.WalksAlike cfg) ?atom ?not ?and ?or ?quant hnnf
  case atom =>
    intro a us us' p p' f' n r₁ r₂ hreach h
    obtain rfl := h.formula _ (matches_transfer hreach)
    exact .pure fun ρ hρ => congrArg Formula.atom (h.apply hreach ρ hρ)
  case not =>
    intro a us us' p p' f' n r₁ r₂ hreach h
    obtain rfl := h.formula _ (matches_transfer hreach)
    exact .pure fun ρ hρ => congrArg (fun a => Formula.not (.atom a)) (h.not.apply hreach ρ hρ)
  case and | or =>
    intro f g ihf ihg us us' p p' f' n r₁ r₂ hreach h
    obtain rfl := h.formula _ (matches_transfer hreach)
    refine (ihf n hreach h.left).bind ?_
    intro g₁ m₁ g₂ m₂ _ hfirst hmates
    have hreach' := hreach.trans hfirst
    refine (ihg n hreach' (h.right.later hreach hfirst)).bind ?_
    intro k₁ l₁ k₂ l₂ _ hsecond hmates'
    refine .pure ?_
    intro ρ hρ
    exact congrArg₂ (Formula.binary _) (hmates.later hreach' hsecond ρ hρ) (hmates' ρ hρ)
  case quant =>
    intro q vs f ih us us' p p' f' n r₁ r₂ hreach h
    obtain rfl := h.formula _ (matches_transfer hreach)
    cases q with
    | all =>
        have hbody := (h.body hreach).enter h.within.bound h.bound_mates
        refine (ih n hreach hbody).bind ?_
        intro g₁ m₁ g₂ m₂ _ halike hmates
        refine .pure ?_
        intro ρ hρ
        exact congrArg₂ (Formula.quant _) (h.bound_mates.later hreach halike ρ hρ) (hmates ρ hρ)
    | ex =>
        have hsources := fun v hv => h.sources v (List.mem_append_left _ hv)
        refine (skolem_terms_lockstep hreach h.universals h.bound_mates hsources).bind ?_
        intro terms m₁ terms' m₂ hterms halike hmates
        have hbody := h.terms hreach halike (skolem_terms_yields hterms) hmates
        have h := h.later hreach halike
        have hreach := hreach.trans halike
        -- the counts are compared for the domains as they are and renamed
        rw [closed_world_rename]
        refine check_expansion_lockstep.bind ?_
        intro k l₁ k' l₂ _ halike hcount
        obtain rfl := hcount _ (matches_transfer (hreach.trans halike))
        have h := h.later hreach halike
        rw [← closed_world_rename]
        exact copies_lockstep ih (hreach.trans halike) (hbody.later hreach halike) h.within.bound
          h.bound_mates

end Starts

end Clausal
