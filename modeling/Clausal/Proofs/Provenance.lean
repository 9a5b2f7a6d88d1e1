import Clausal.Proofs.Operations

/-!
# Where the contents of a registry come from

What a registry holds after a run goes back to operations of the run. What was defined is found
under its name as it was given back, until the registry is cleared (`kept_in`). A variable that is
there was brought in by an operation: by a definition, over the constants that were given, or by one
that had copies made, with the domain of what it copies (`run_supplies`). `run_keeps_registry` adds
this to what holds of registries in use.
-/

namespace Clausal

open Variable (names)

variable {op : Operation} {ops : List Operation} {r mid r' : Registry} {v : Variable}

/-! ## From operations to contents -/

/-- What the operation defines, copies, mints or asserts from `r` is found in `r'` as it was given
back. -/
def Operation.KeptIn (op : Operation) (r r' : Registry) : Prop :=
  match op with
  | defineConstant name => ∀ c mid, (Clausal.defineConstant name).Yields r c mid →
      c.name = Text.capitalize name ∧ r'.storedConstant? c.name = some c
  | defineVariable name given => ∀ v mid, (Clausal.defineVariable name given).Yields r v mid →
      v.name = name ∧ DomainLists given v.domain ∧ r'.variableNamed? name = some v
  | definePredicate name arity => ∀ p mid, (Clausal.definePredicate name arity).Yields r p mid →
      p = ⟨name, arity⟩ ∧ r'.predicateNamed? name = some p
  | freshVariable template => ∀ v mid, ((Clausal.freshVariable template).run r).value = (v, mid) →
      v.domain = template.domain ∧ r'.variableNamed? v.name = some v
  | mintConstant base => ∀ c mid, ((Clausal.mintConstant base).run r).value = (c, mid) →
      r'.storedConstant? c.name = some c
  | mintFunction base args => ∀ t mid, ((Clausal.mintFunction base args).run r).value = (t, mid) →
      ∃ name, t = .skolem name args ∧ r'.skolemArity? name = some args.length
  | assert s => ∀ f, s = .formula f → r'.axioms[r.axioms.length]? = some f
  | _ => True

namespace Attempt

variable {α : Type} {a : α}

theorem Yields.after_forget {x : Attempt α} (h : x.Yields r a mid) : x.forget.after r = mid :=
  Attempt.after_forget.trans h.2

theorem after_forget_action {y : Action α} (h : (y.run r).value = (a, mid)) :
    (forget (liftM y)).after r = mid :=
  Yields.after_forget (yields_action.2 h)

end Attempt

/-- In a sound registry that extends what the operation left, it is found. -/
theorem kept_in (hsound : r'.Sound) (hextends : (op.perform.after r).Extends r') :
    op.KeptIn r r' := by
  have hfound := hsound.found_by_name
  cases op with
  | defineConstant name =>
      intro c mid h
      obtain ⟨-, hname, -, rfl⟩ := define_constant_yields h
      rw [Operation.perform, h.after_forget] at hextends
      exact ⟨hname, hfound.consts c (hextends.consts.subset (List.mem_concat_self ..))⟩
  | defineVariable name given =>
      intro v mid h
      obtain ⟨-, rfl, hlists, -, rfl⟩ := define_variable_yields h
      rw [Operation.perform, h.after_forget] at hextends
      exact ⟨rfl, hlists, hfound.vars v (hextends.vars.subset (List.mem_concat_self ..))⟩
  | definePredicate name arity =>
      intro p mid h
      obtain ⟨-, rfl, -, -, rfl⟩ := define_predicate_yields h
      rw [Operation.perform, h.after_forget] at hextends
      exact ⟨rfl, hfound.preds _ (hextends.preds.subset (List.mem_concat_self ..))⟩
  | freshVariable template =>
      intro v mid h
      obtain ⟨name, rfl, hadds⟩ := fresh_variable_run h
      rw [Operation.perform, Attempt.after_forget_action h] at hextends
      have hmem : template.renamed name ∈ mid.vars := by
        rw [hadds.vars_eq]
        exact List.mem_concat_self ..
      exact ⟨rfl, hfound.vars _ (hextends.vars.subset hmem)⟩
  | mintConstant base =>
      intro c mid h
      have hadds := mint_constant_run h
      rw [Operation.perform, Attempt.after_forget_action h] at hextends
      have hmem : c ∈ mid.consts := by
        rw [hadds.consts_eq]
        exact List.mem_concat_self ..
      exact hfound.consts c (hextends.consts.subset hmem)
  | mintFunction base args =>
      intro t mid h
      obtain ⟨name, ht, hadds⟩ := mint_function_run h
      rw [Operation.perform, Attempt.after_forget_action h] at hextends
      have hmem : ⟨name, args.length⟩ ∈ mid.skolemSymbols := by
        rw [hadds.skolems_eq]
        exact List.mem_concat_self ..
      exact ⟨name, ht, hfound.skolems _ (hextends.skolems.subset hmem)⟩
  | assert s =>
      rintro f rfl
      have hasserted : r.axioms ++ [f] <+: r'.axioms := hextends.axioms
      obtain ⟨later, hlater⟩ := hasserted
      simp [← hlater]
  | standardizeApart | skolemize | toCnf | toClauses | clausifyAxioms | clear => trivial

/-! ## From contents to operations -/

/-- What the operation brings into `r`: a variable over the constants given to it, or one with the
domain of a variable that it has copies made of. -/
def Operation.Supplies (op : Operation) (r : Registry) (v : Variable) : Prop :=
  match op with
  | defineVariable name given => v.name = name ∧ DomainLists given v.domain
  | clausifyAxioms _ => ∃ f ∈ r.axioms, ∃ w ∈ f.binders, v.domain = w.domain
  | op => ∃ w ∈ op.templates, v.domain = w.domain

/-- What the operation leaves when it started from `r`: every variable is one of `r` or brought in
by the operation, and when axioms are converted they stay what they are. -/
structure Operation.SuppliedBy (op : Operation) (r r' : Registry) : Prop where
  axioms : ∀ cfg, op = .clausifyAxioms cfg → r'.axioms = r.axioms
  vars : ∀ v ∈ r'.vars, v ∈ r.vars ∨ op.Supplies r v

namespace Operation.SuppliedBy

theorem refl : op.SuppliedBy r r := ⟨fun _ _ => rfl, fun _ => .inl⟩

theorem adds {cs : List Constant} {vs : List Variable} {ss : List SkolemSymbol}
    (h : op.SuppliedBy r mid) (hadds : mid.Adds r' cs vs ss) (hvs : ∀ v ∈ vs, op.Supplies r v) :
    op.SuppliedBy r r' where
  axioms := fun cfg hop => hadds.grows.axioms.trans (h.axioms cfg hop)
  vars := by
    rw [hadds.vars_eq]
    exact List.forall_mem_append.2 ⟨h.vars, fun v hv => .inr (hvs v hv)⟩

end Operation.SuppliedBy

open Operation (SuppliedBy)

theorem fresh_variable_supplied (h : ∀ w : Variable, w.domain = v.domain → op.Supplies r w) :
    (freshVariable v).Preserves (op.SuppliedBy r) := by
  intro mid w r' hrun hmid
  obtain ⟨_, rfl, hadds⟩ := fresh_variable_run hrun
  exact hmid.adds hadds (List.forall_mem_singleton.2 (h _ rfl))

theorem maintains_supplied (op : Operation) (r : Registry) : op.Maintains (op.SuppliedBy r) where
  cleared := by
    rintro rfl
    exact ⟨nofun, List.forall_mem_nil _⟩
  definedConst := by
    rintro name rfl mid c r' h hmid
    obtain ⟨-, -, -, rfl⟩ := define_constant_yields h
    exact ⟨nofun, hmid.vars⟩
  definedVar := by
    rintro name given rfl mid v r' h hmid
    obtain ⟨-, hname, hlists, -, rfl⟩ := define_variable_yields h
    exact ⟨nofun, List.forall_mem_append.2
      ⟨hmid.vars, List.forall_mem_singleton.2 (.inr ⟨hname, hlists⟩)⟩⟩
  definedPred := by
    rintro name arity rfl mid p r' h hmid
    obtain ⟨-, -, -, -, rfl⟩ := define_predicate_yields h
    exact ⟨nofun, hmid.vars⟩
  statement := by
    rintro s rfl mid u r' h hmid
    obtain ⟨f, -, rfl⟩ := assert_yields h
    exact ⟨nofun, hmid.vars⟩
  copy := fun v hv => by
    refine fresh_variable_supplied fun w hw => ?_
    cases op with
    | freshVariable | standardizeApart | toCnf | toClauses => exact ⟨v, hv, hw⟩
    | _ => exact absurd hv List.not_mem_nil
  axiomCopy := by
    rintro cfg rfl mid hmid f hf v hv
    rw [hmid.axioms cfg rfl] at hf
    exact fresh_variable_supplied fun w hw => ⟨f, hf, v, hv, hw⟩
  mintedConst := fun base _ mid c r' h hmid =>
    hmid.adds (mint_constant_run h) (List.forall_mem_nil _)
  mintedFunc := by
    intro base _ args mid t r' h hmid
    obtain ⟨_, -, hadds⟩ := mint_function_run h
    exact hmid.adds hadds (List.forall_mem_nil _)

/-- Every variable was there before or is brought in by the operation. -/
theorem perform_supplies (op : Operation) (r : Registry) :
    ∀ v ∈ (op.perform.after r).vars, v ∈ r.vars ∨ op.Supplies r v := by
  have hsupplied : op.SuppliedBy r (run [op] r) :=
    run_preserves (List.forall_mem_singleton.2 (maintains_supplied op r)) .refl
  exact hsupplied.vars

/-- Some operation of the run brought the variable in. -/
def BroughtIn (ops : List Operation) (r : Registry) (v : Variable) : Prop :=
  ∃ before op after, ops = before ++ op :: after ∧ v ∉ (run before r).vars ∧
    v ∈ (op.perform.after (run before r)).vars ∧ op.Supplies (run before r) v

/-- Every variable was there from the start or was brought in by an operation of the run. -/
theorem run_supplies (h : v ∈ (run ops r).vars) : v ∈ r.vars ∨ BroughtIn ops r v := by
  induction ops generalizing r with
  | nil => exact .inl h
  | cons op ops ih =>
      by_cases hold : v ∈ r.vars
      · exact .inl hold
      rcases ih h with hnew | ⟨before, op', after, rfl, hlater⟩
      · have hsupplies := (perform_supplies op r v hnew).resolve_left hold
        exact .inr ⟨[], op, ops, rfl, hold, hnew, hsupplies⟩
      · exact .inr ⟨op :: before, op', after, rfl, hlater⟩

/-! ## Registries in use -/

/-- Whatever was done with a registry since it was empty, each symbol is stored under its own name
and no other of its kind has that name; predicates have arguments. What was defined is found as it
was given back, until the registry is cleared. Every variable goes back to an operation of the run,
and the domain of one that was defined lists the constants that were given, while a copy has the
domain of what it copies. What is there stays in place until the registry is cleared, and an
operation that fails changes nothing. -/
theorem run_keeps_registry (hops : ∀ op ∈ ops, op.Admissible) :
    let r := run ops .empty
    r.Sound ∧ r.FoundByName ∧ (∀ p ∈ r.preds, 1 ≤ p.arity) ∧
      (∀ before op after, ops = before ++ op :: after → .clear ∉ after →
        op.KeptIn (run before .empty) r) ∧
      (∀ v ∈ r.vars, BroughtIn ops .empty v) ∧
      (∀ v ∈ r.vars, v.Issued ∧ ∀ given, v.DefinedOver given → DomainLists given v.domain) ∧
      (∀ f ∈ r.axioms, f.RangesInhabited) ∧
      (∀ more, .clear ∉ more → r.Extends (run more r)) ∧
      ∀ (op : Operation) e, op.perform.outcome r = .error e → op.perform.after r = r := by
  intro r
  have hsound : r.Sound := run_sound hops .empty
  refine ⟨hsound, hsound.found_by_name, fun p hp => (hsound.applicable p hp).2, ?_,
    fun v hv => (run_supplies hv).resolve_left List.not_mem_nil,
    fun v hv => ⟨hsound.issued v hv, fun _ hdefined => hdefined.domain_lists⟩,
    fun f hf => (hsound.axiomsIssued f hf).ranges_inhabited,
    fun _ hclear => run_extends hclear r, fun op => perform_restores op r⟩
  rintro before op after rfl hclear
  have hrun : r = run after (op.perform.after (run before .empty)) := List.foldl_append
  exact kept_in hsound (hrun ▸ run_extends hclear _)

namespace Sample

/-- A variable that was defined over `B`, `A` and `B` again. -/
def either : Variable := { name := "e", domain := some [⟨"B"⟩, ⟨"A"⟩] }

/-- A formula that binds it twice. -/
def twice : Formula :=
  let once : Formula := .ex [either] (.atom ⟨⟨"P", 1⟩, [.var either]⟩)
  .and once once

/-- Definitions, one of them refused, and a conversion that renames a variable. -/
def session : List Operation :=
  [.defineConstant "a", .defineConstant "b", .defineVariable "e" (some [⟨"B"⟩, ⟨"A"⟩, ⟨"B"⟩]),
    .defineVariable "e" none, .definePredicate "P" 1, .toCnf {} twice]

theorem session_admissible : ∀ op ∈ session, op.Admissible := by
  have heither : either.Issued :=
    have hdefined : (defineVariable "e" (some [⟨"B"⟩, ⟨"A"⟩, ⟨"B"⟩])).Yields .empty either
        (Registry.empty.addVariable either) := ⟨rfl, rfl⟩
    ⟨_, .defined hdefined⟩
  have htwice : twice.Issued := by
    have hvariables : ∀ v ∈ [either, either, either, either], v.Issued := by simpa using heither
    exact hvariables
  simpa [session, Operation.Admissible] using htwice

end Sample

open Sample in
theorem run_keeps_registry_session :
    let r := run session .empty
    let given : List Constant := [⟨"B"⟩, ⟨"A"⟩, ⟨"B"⟩]
    (∀ op ∈ session, op.Admissible) ∧ names r.vars = ["e", "e_0"] ∧
      r.Sound ∧ r.FoundByName ∧ (∀ p ∈ r.preds, 1 ≤ p.arity) ∧
      (.clear ∉ session.drop 3 ∧ DomainLists (some given) either.domain ∧
        r.variableNamed? "e" = some either) ∧
      (∀ v ∈ r.vars, BroughtIn session .empty v) ∧
      (∀ v ∈ r.vars, v.Issued ∧ ∀ given, v.DefinedOver given → DomainLists given v.domain) ∧
      (∀ more, .clear ∉ more → r.Extends (run more r)) ∧
      (Operation.defineConstant "A").perform.after r = r := by
  intro r given
  have hduplicate : (Operation.defineConstant "A").perform.outcome r =
      .error (.duplicateName .const "A") := by rfl
  have hclear : .clear ∉ session.drop 3 := by simp [session]
  obtain ⟨hsound, hfound, harity, hkept, hbrought, hdomains, -, hextends, hrestores⟩ :=
    run_keeps_registry session_admissible
  have hdefined : (defineVariable "e" (some given)).Yields (run (session.take 2) .empty) either _ :=
    ⟨rfl, rfl⟩
  have hkeptIn : (Operation.defineVariable "e" (some given)).KeptIn (run (session.take 2) .empty) r :=
    hkept _ _ _ rfl hclear
  obtain ⟨-, hlists, hfind⟩ := hkeptIn _ _ hdefined
  exact ⟨session_admissible, by decide +kernel, hsound, hfound, harity, ⟨hclear, hlists, hfind⟩,
    hbrought, hdomains, hextends, hrestores _ _ hduplicate⟩

end Clausal
