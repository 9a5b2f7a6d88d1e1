import Clausal.Proofs.Define
import Clausal.Proofs.Outcome
import Clausal.Proofs.Preserved

/-!
# Registries in use

What users do with a registry is a sequence of operations (`Operation`), each of which may succeed
or fail. A failed one leaves the registry as it was (`perform_restores`), and except for clearing
operations only add after what is there (`perform_extends`). An invariant of every run is what the
parts of each operation preserve (`run_preserves`); so `Registry.Sound`, which holds of the empty
registry, holds after every run (`run_sound`).
-/

namespace Clausal

open Variable (names)

/-! ## Operations -/

/-- The variables of the formula are such as users can get. -/
def Formula.Issued (f : Formula) : Prop := ∀ v ∈ f.binders ++ f.occurrences, v.Issued

/-- Formulas that users can build range over something wherever they bind a variable. -/
theorem Formula.Issued.ranges_inhabited {f : Formula} (h : f.Issued) : f.RangesInhabited :=
  fun v hv => (h v (List.mem_append_left _ hv)).inhabited

/-- What users can do with a registry. -/
inductive Operation where
  | defineConstant (name : String)
  | defineVariable (name : String) (domain : Option (List Constant))
  | definePredicate (name : String) (arity : Nat)
  | freshVariable (template : Variable)
  | mintConstant (base : String)
  | mintFunction (base : String) (args : List Term)
  | assert (s : Statement)
  | standardizeApart (f : Formula)
  | skolemize (cfg : Config) (f : Formula)
  | toCnf (cfg : Config) (f : Formula)
  | toClauses (cfg : Config) (f : Formula)
  | clausifyAxioms (cfg : Config)
  | clear

/-- The attempt without its value. -/
def Attempt.forget {α : Type} (x : Attempt α) : Attempt Unit := x >>= fun _ => pure ()

namespace Operation

/-- Carries out an operation; what it gives is of no interest to the registry. -/
def perform : Operation → Attempt Unit
  | defineConstant name => (Clausal.defineConstant name).forget
  | defineVariable name domain => (Clausal.defineVariable name domain).forget
  | definePredicate name arity => (Clausal.definePredicate name arity).forget
  | freshVariable template => Attempt.forget (liftM (Clausal.freshVariable template))
  | mintConstant base => Attempt.forget (liftM (Clausal.mintConstant base))
  | mintFunction base args => Attempt.forget (liftM (Clausal.mintFunction base args))
  | assert s => assertStatement s
  | standardizeApart f => Attempt.forget (liftM f.standardizeApart)
  | skolemize cfg f => (f.skolemize cfg).forget
  | toCnf cfg f => (f.toCnf cfg).forget
  | toClauses cfg f => (f.toClauses cfg).forget
  | clausifyAxioms cfg => (Clausal.clausifyAxioms cfg).forget
  | clear => set Registry.empty

/-- The variables handed to the operation that it may make copies of. -/
def templates : Operation → List Variable
  | freshVariable template => [template]
  | standardizeApart f | toCnf _ f | toClauses _ f => f.binders
  | _ => []

/-- What the names begin with that the operation mints. -/
def bases : Operation → List String
  | mintConstant base | mintFunction base _ => [base]
  | skolemize cfg _ | toCnf cfg _ | toClauses cfg _ | clausifyAxioms cfg => [cfg.skolemPrefix]
  | _ => []

/-- The variables handed to the operation are such as users can get. -/
def Admissible : Operation → Prop
  | freshVariable template => template.Issued
  | assert (.formula f) | standardizeApart f | skolemize _ f | toCnf _ f | toClauses _ f => f.Issued
  | _ => True

end Operation

/-- The registry after operations, each of which may fail. -/
def run (ops : List Operation) (r : Registry) : Registry :=
  ops.foldl (fun r op => op.perform.after r) r

/-! ## Attempts without their values -/

namespace Attempt

variable {α : Type} {x : Attempt α} {r r' : Registry}

theorem yields_forget {u : Unit} : x.forget.Yields r u r' ↔ ∃ a, x.Yields r a r' := by
  simp only [forget, yields_bind, yields_pure, true_and]
  constructor
  · rintro ⟨a, _, h, rfl⟩
    exact ⟨a, h⟩
  · rintro ⟨a, h⟩
    exact ⟨a, _, h, rfl⟩

theorem after_forget : x.forget.after r = x.after r := by
  rw [forget, after_bind]
  cases x.outcome r <;> rfl

theorem Restores.forget (h : x.Restores) : x.forget.Restores := by
  intro r e herror
  rw [after_forget]
  rcases outcome_bind_eq_error.1 herror with herror | ⟨_, _, herror⟩
  · exact h r e herror
  · cases herror

theorem Preserves.forget {P : Registry → Prop} (h : x.Preserves P) : x.forget.Preserves P :=
  .bind h fun _ => .pure

theorem restores_action {y : Action α} : (liftM y : Attempt α).Restores := .of_ok fun _ => ⟨_, rfl⟩

end Attempt

variable {op : Operation} {ops more : List Operation} {r r' : Registry}

/-- What an admissible operation makes copies of are variables such as users can get. -/
theorem Operation.Admissible.templates (h : op.Admissible) : ∀ v ∈ op.templates, v.Issued := by
  cases op with
  | freshVariable => exact List.forall_mem_singleton.2 h
  | standardizeApart | toCnf | toClauses => exact (List.forall_mem_append.1 h).1
  | _ => exact fun _ hv => absurd hv List.not_mem_nil

/-- A failed operation leaves the registry as it was. -/
theorem perform_restores (op : Operation) : op.perform.Restores := by
  cases op with
  | defineConstant name => exact (define_constant_restores name).forget
  | defineVariable name domain => exact (define_variable_restores name domain).forget
  | definePredicate name arity => exact (define_predicate_restores name arity).forget
  | freshVariable | mintConstant | mintFunction | standardizeApart =>
      exact Attempt.restores_action.forget
  | assert s => exact assert_restores s
  | skolemize cfg f => exact .forget fun _ _ h => (skolemize_atomic cfg f).restores h
  | toCnf cfg f => exact .forget fun _ _ h => (to_cnf_atomic cfg f).restores h
  | toClauses cfg f => exact .forget fun _ _ h => (to_clauses_atomic cfg f).restores h
  | clausifyAxioms cfg => exact .forget fun _ _ h => (clausify_axioms_atomic cfg).restores h
  | clear => exact .of_ok fun _ => ⟨_, rfl⟩

/-! ## Entries stay in place -/

namespace Registry

/-- Nothing was removed, replaced or moved: symbols and axioms were added after the old ones. -/
structure Extends (r r' : Registry) : Prop where
  consts : r.consts <+: r'.consts
  vars : r.vars <+: r'.vars
  preds : r.preds <+: r'.preds
  skolems : r.skolemSymbols <+: r'.skolemSymbols
  axioms : r.axioms <+: r'.axioms

namespace Extends

theorem refl (r : Registry) : r.Extends r :=
  ⟨List.prefix_rfl, List.prefix_rfl, List.prefix_rfl, List.prefix_rfl, List.prefix_rfl⟩

theorem trans {mid : Registry} (h : r.Extends mid) (h' : mid.Extends r') : r.Extends r' where
  consts := h.consts.trans h'.consts
  vars := h.vars.trans h'.vars
  preds := h.preds.trans h'.preds
  skolems := h.skolems.trans h'.skolems
  axioms := h.axioms.trans h'.axioms

end Extends

theorem Grows.extends (h : r.Grows r') : r.Extends r' where
  consts := h.consts
  vars := h.vars
  preds := h.preds ▸ List.prefix_rfl
  skolems := h.skolems
  axioms := h.axioms ▸ List.prefix_rfl

end Registry

/-- An operation that succeeds only adds to the registry, unless it clears it. -/
theorem extends_of_yields {u : Unit} (hclear : op ≠ .clear) (h : op.perform.Yields r u r') :
    r.Extends r' := by
  cases op with
  | defineConstant name =>
      obtain ⟨c, h⟩ := Attempt.yields_forget.1 h
      obtain ⟨-, -, -, rfl⟩ := define_constant_yields h
      exact { Registry.Extends.refl r with consts := List.prefix_append .. }
  | defineVariable name domain =>
      obtain ⟨v, h⟩ := Attempt.yields_forget.1 h
      obtain ⟨-, -, -, -, rfl⟩ := define_variable_yields h
      exact { Registry.Extends.refl r with vars := List.prefix_append .. }
  | definePredicate name arity =>
      obtain ⟨p, h⟩ := Attempt.yields_forget.1 h
      obtain ⟨-, -, -, -, rfl⟩ := define_predicate_yields h
      exact { Registry.Extends.refl r with preds := List.prefix_append .. }
  | freshVariable template =>
      obtain ⟨v, h⟩ := Attempt.yields_forget.1 h
      obtain ⟨_, -, hadds⟩ := fresh_variable_run (Attempt.yields_action.1 h)
      exact hadds.grows.extends
  | mintConstant base =>
      obtain ⟨c, h⟩ := Attempt.yields_forget.1 h
      exact (mint_constant_run (Attempt.yields_action.1 h)).grows.extends
  | mintFunction base args =>
      obtain ⟨t, h⟩ := Attempt.yields_forget.1 h
      obtain ⟨_, -, hadds⟩ := mint_function_run (Attempt.yields_action.1 h)
      exact hadds.grows.extends
  | assert s =>
      obtain ⟨f, -, rfl⟩ := assert_yields h
      exact { Registry.Extends.refl r with axioms := List.prefix_append .. }
  | standardizeApart f =>
      obtain ⟨g, h⟩ := Attempt.yields_forget.1 h
      exact (standardize_apart_grows (Attempt.yields_action.1 h)).extends
  | skolemize cfg f =>
      obtain ⟨g, hok, rfl⟩ := Attempt.yields_forget.1 h
      exact ((skolemize_atomic cfg f).grows hok).extends
  | toCnf cfg f =>
      obtain ⟨c, hok, rfl⟩ := Attempt.yields_forget.1 h
      exact ((to_cnf_atomic cfg f).grows hok).extends
  | toClauses cfg f =>
      obtain ⟨cs, hok, rfl⟩ := Attempt.yields_forget.1 h
      exact ((to_clauses_atomic cfg f).grows hok).extends
  | clausifyAxioms cfg =>
      obtain ⟨cs, hok, rfl⟩ := Attempt.yields_forget.1 h
      exact ((clausify_axioms_atomic cfg).grows hok).extends
  | clear => exact absurd rfl hclear

/-- Whether it succeeds or fails, an operation leaves entries in place, unless it clears them. -/
theorem perform_extends (hclear : op ≠ .clear) (r : Registry) :
    r.Extends (op.perform.after r) := by
  cases houtcome : op.perform.outcome r with
  | ok => exact extends_of_yields hclear (Attempt.yields_of_outcome houtcome)
  | error e =>
      rw [perform_restores op r e houtcome]
      exact .refl r

theorem run_extends (hclear : .clear ∉ ops) (r : Registry) : r.Extends (run ops r) := by
  induction ops generalizing r with
  | nil => exact .refl r
  | cons op ops ih =>
      obtain ⟨hop, hops⟩ := not_or.1 (List.mem_cons.not.1 hclear)
      exact (perform_extends (Ne.symm hop) r).trans (ih hops _)

/-! ## Invariants of runs -/

/-- Whatever the operation consists of preserves `P`: the definition it makes, the axiom it puts
forward, copies of the variables handed to it or bound by the axioms it converts, and symbols minted
on its bases. If it clears the registry, the empty one has `P`. -/
structure Operation.Maintains (op : Operation) (P : Registry → Prop) : Prop where
  cleared : op = .clear → P .empty
  definedConst : ∀ name, op = .defineConstant name → (Clausal.defineConstant name).Preserves P
  definedVar : ∀ name domain, op = .defineVariable name domain →
    (Clausal.defineVariable name domain).Preserves P
  definedPred : ∀ name arity, op = .definePredicate name arity →
    (Clausal.definePredicate name arity).Preserves P
  statement : ∀ s, op = .assert s → (assertStatement s).Preserves P
  copy : ∀ v ∈ op.templates, (Clausal.freshVariable v).Preserves P
  axiomCopy : ∀ cfg, op = .clausifyAxioms cfg →
    ∀ r, P r → ∀ f ∈ r.axioms, ∀ v ∈ f.binders, (Clausal.freshVariable v).Preserves P
  mintedConst : ∀ base ∈ op.bases, (Clausal.mintConstant base).Preserves P
  mintedFunc : ∀ base ∈ op.bases, ∀ args, (Clausal.mintFunction base args).Preserves P

section Invariants

variable {P : Registry → Prop}

theorem perform_preserves (h : op.Maintains P) : op.perform.Preserves P := by
  have hterm (cfg : Config) (hbase : cfg.skolemPrefix ∈ op.bases) (us : List Variable)
      (v : Variable) : (skolemTerm cfg us v).Preserves P :=
    skolem_term_preserves (h.mintedConst _ hbase) (h.mintedFunc _ hbase)
  have hbase {base : String} : base ∈ [base] := List.mem_singleton.2 rfl
  cases op with
  | defineConstant name => exact .forget (h.definedConst name rfl)
  | defineVariable name domain => exact .forget (h.definedVar name domain rfl)
  | definePredicate name arity => exact .forget (h.definedPred name arity rfl)
  | freshVariable template =>
      exact .forget (.action (h.copy template (List.mem_singleton.2 rfl)))
  | mintConstant base => exact .forget (.action (h.mintedConst base hbase))
  | mintFunction base args => exact .forget (.action (h.mintedFunc base hbase args))
  | assert s => exact h.statement s rfl
  | standardizeApart f => exact .forget (.action (standardize_apart_preserves h.copy))
  | skolemize cfg f => exact .forget (.atomically (skolem_walk_preserves (hterm cfg hbase)))
  | toCnf cfg f => exact .forget (to_cnf_preserves h.copy (hterm cfg hbase))
  | toClauses cfg f => exact .forget (to_clauses_preserves h.copy (hterm cfg hbase))
  | clausifyAxioms cfg =>
      exact .forget (clausify_axioms_preserves (h.axiomCopy cfg rfl) (hterm cfg hbase))
  | clear =>
      intro r u r' hyields _
      rw [Attempt.yields_set.1 hyields]
      exact h.cleared rfl

/-- What operations maintain, whether they succeed or fail, holds after every run. -/
theorem run_preserves (hops : ∀ op ∈ ops, op.Maintains P) (h : P r) : P (run ops r) := by
  induction ops generalizing r with
  | nil => exact h
  | cons op ops ih =>
      obtain ⟨hop, hops⟩ := List.forall_mem_cons.1 hops
      have hstep : P (op.perform.after r) := by
        cases houtcome : op.perform.outcome r with
        | ok => exact perform_preserves hop _ _ _ (Attempt.yields_of_outcome houtcome) h
        | error e => rwa [perform_restores op r e houtcome]
      exact ih hops hstep

end Invariants

/-! ### Constants and Skolem functions one by one -/

section ForEach

variable {C : Constant → Prop} {S : SkolemSymbol → Prop}

/-- Every constant satisfies `C`, and every Skolem function `S`. -/
structure Registry.ForEach (C : Constant → Prop) (S : SkolemSymbol → Prop) (r : Registry) :
    Prop where
  consts : ∀ c ∈ r.consts, C c
  skolems : ∀ s ∈ r.skolemSymbols, S s

namespace Registry.ForEach

theorem empty : Registry.empty.ForEach C S :=
  ⟨fun _ h => absurd h List.not_mem_nil, fun _ h => absurd h List.not_mem_nil⟩

/-- Symbols may be added that satisfy what the others do. -/
theorem adds {cs : List Constant} {vs : List Variable} {ss : List SkolemSymbol}
    (h : r.ForEach C S) (hadds : r.Adds r' cs vs ss) (hcs : ∀ c ∈ cs, C c) (hss : ∀ s ∈ ss, S s) :
    r'.ForEach C S where
  consts := by
    rw [hadds.consts_eq]
    exact List.forall_mem_append.2 ⟨h.consts, hcs⟩
  skolems := by
    rw [hadds.skolems_eq]
    exact List.forall_mem_append.2 ⟨h.skolems, hss⟩

end Registry.ForEach

theorem fresh_variable_preserves_each (v : Variable) :
    (freshVariable v).Preserves (Registry.ForEach C S) := by
  intro r w r' h hr
  obtain ⟨_, -, hadds⟩ := fresh_variable_run h
  exact hr.adds hadds (fun _ h => absurd h List.not_mem_nil) fun _ h => absurd h List.not_mem_nil

/-- What defined constants satisfy, and symbols that are named by a base and a number, is satisfied
by all. -/
theorem maintains_each (hdefined : ∀ name r c r', (defineConstant name).Yields r c r' → C c)
    (hconst : ∀ base ∈ op.bases, ∀ k : Nat, C ⟨base ++ k.repr⟩)
    (hfunc : ∀ base ∈ op.bases, ∀ k arity : Nat, S ⟨base ++ k.repr, arity⟩) :
    op.Maintains (Registry.ForEach C S) where
  cleared := fun _ => .empty
  definedConst := by
    intro name _ r c r' h hr
    have hc := hdefined name r c r' h
    obtain ⟨-, -, -, rfl⟩ := define_constant_yields h
    exact ⟨List.forall_mem_append.2 ⟨hr.consts, List.forall_mem_singleton.2 hc⟩, hr.skolems⟩
  definedVar := by
    intro name domain _ r v r' h hr
    obtain ⟨-, -, -, -, rfl⟩ := define_variable_yields h
    exact ⟨hr.consts, hr.skolems⟩
  definedPred := by
    intro name arity _ r p r' h hr
    obtain ⟨-, -, -, -, rfl⟩ := define_predicate_yields h
    exact ⟨hr.consts, hr.skolems⟩
  statement := by
    rintro s - r u r' h hr
    obtain ⟨f, -, rfl⟩ := assert_yields h
    exact ⟨hr.consts, hr.skolems⟩
  copy := fun v _ => fresh_variable_preserves_each v
  axiomCopy := fun _ _ _ _ _ _ v _ => fresh_variable_preserves_each v
  mintedConst := by
    intro base hbase r c r' h hr
    have hadds := mint_constant_run h
    cases h
    exact hr.adds hadds (List.forall_mem_singleton.2 (hconst base hbase _))
      fun _ h => absurd h List.not_mem_nil
  mintedFunc := by
    intro base hbase args r t r' h hr
    obtain ⟨_, ht, hadds⟩ := mint_function_run h
    cases h
    cases ht
    exact hr.adds hadds (fun _ h => absurd h List.not_mem_nil)
      (List.forall_mem_singleton.2 (hfunc base hbase _ _))

end ForEach

/-! ## Sound registries -/

section ByName

variable {α : Type} {key : α → String} {xs : List α} {name : String}

theorem find_eq_none_iff_not_mem : xs.find? (key · == name) = none ↔ name ∉ xs.map key := by
  simp [List.find?_eq_none]

/-- Under distinct names each element is what its name finds. -/
theorem find_of_nodup (h : (xs.map key).Nodup) {x : α} (hx : x ∈ xs) :
    xs.find? (key · == key x) = some x := by
  obtain ⟨y, hfind⟩ : ∃ y, xs.find? (key · == key x) = some y :=
    Option.isSome_iff_exists.1 (List.find?_isSome.2 ⟨x, hx, beq_self_eq_true _⟩)
  have hname : key y = key x := by simpa using List.find?_some hfind
  rw [hfind, List.inj_on_of_nodup_map h (List.mem_of_find?_eq_some hfind) hx hname]

/-- An element under a name that finds nothing may be added. -/
theorem nodup_append_of_find_eq_none (h : (xs.map key).Nodup) {x : α}
    (hunused : xs.find? (key · == key x) = none) : ((xs ++ [x]).map key).Nodup := by
  have hnew : key x ∉ xs.map key := find_eq_none_iff_not_mem.1 hunused
  rw [List.map_append, List.map_singleton, ← List.concat_eq_append]
  exact (List.nodup_concat _ _).2 ⟨hnew, h⟩

end ByName

namespace Registry

theorem mem_term_names_add_constant {c : Constant} {name : String}
    (h : name ∈ (r.addConstant c).termNames) : name ∈ r.termNames ∨ name = c.name := by
  simp only [termNames, addConstant, List.map_append, List.map_singleton, List.mem_append,
    List.mem_singleton] at h ⊢
  tauto

theorem mem_term_names_add_variable {v : Variable} {name : String}
    (h : name ∈ (r.addVariable v).termNames) : name ∈ r.termNames ∨ name = v.name := by
  simp only [termNames, addVariable, List.map_append, List.map_singleton, List.mem_append,
    List.mem_singleton] at h ⊢
  tauto

/-- What holds of registries in use: the symbols of a kind have distinct names, predicates have
arguments, and variables are such as users can get. -/
structure Sound (r : Registry) : Prop where
  consts : (r.consts.map (·.name)).Nodup
  vars : (names r.vars).Nodup
  preds : (r.preds.map (·.name)).Nodup
  skolems : (r.skolemSymbols.map (·.name)).Nodup
  nonempty : ∀ name ∈ r.termNames, name ≠ ""
  applicable : ∀ p ∈ r.preds, Text.isWord p.name = true ∧ 1 ≤ p.arity
  issued : ∀ v ∈ r.vars, v.Issued
  axiomsIssued : ∀ f ∈ r.axioms, f.Issued

namespace Sound

theorem empty : Registry.empty.Sound := by
  constructor <;> first | exact .nil | exact fun _ h => nomatch h

/-- Symbols under new names keep a registry sound. -/
theorem grows (h : r.Sound) (hgrows : r.Grows r') (hissued : ∀ v ∈ r.addedVars r', v.Issued)
    (hnonempty : ∀ name ∈ r.addedNames r', name ≠ "") : r'.Sound := by
  have hnodup {old added : List String} (hold : old.Nodup) (hadded : added.Nodup)
      (hused : old ⊆ r.termNames) (hnew : added ⊆ r.addedNames r') : (old ++ added).Nodup :=
    List.nodup_append.2 ⟨hold, hadded, fun _ hname _ hname' heq =>
      hgrows.fresh _ (hnew hname') (heq ▸ hused hname)⟩
  obtain ⟨hconstsvars, hskolems, -⟩ := List.nodup_append.1 hgrows.nodup
  obtain ⟨hconsts, hvars, -⟩ := List.nodup_append.1 hconstsvars
  constructor
  case consts =>
    rw [hgrows.consts_eq, List.map_append]
    exact hnodup h.consts hconsts (by simp [termNames]) (by simp [addedNames])
  case vars =>
    rw [hgrows.vars_eq, names, List.map_append]
    exact hnodup h.vars hvars (by simp [termNames]) (by simp [addedNames])
  case skolems =>
    rw [hgrows.skolems_eq, List.map_append]
    exact hnodup h.skolems hskolems (by simp [termNames]) (by simp [addedNames])
  case preds =>
    rw [hgrows.preds]
    exact h.preds
  case nonempty =>
    intro name hname
    exact (hgrows.mem_term_names.1 hname).elim (h.nonempty name) (hnonempty name)
  case applicable =>
    rw [hgrows.preds]
    exact h.applicable
  case issued =>
    rw [hgrows.vars_eq]
    exact List.forall_mem_append.2 ⟨h.issued, hissued⟩
  case axiomsIssued =>
    rw [hgrows.axioms]
    exact h.axiomsIssued

/-! Definitions under names that are not in use keep a registry sound. -/

theorem add_constant (h : r.Sound) {c : Constant} (hnonempty : c.name ≠ "")
    (hunused : r.storedConstant? c.name = none) : (r.addConstant c).Sound where
  __ := h
  consts := nodup_append_of_find_eq_none h.consts hunused
  nonempty := by
    intro name hname
    rcases mem_term_names_add_constant hname with hold | rfl
    · exact h.nonempty name hold
    · exact hnonempty

theorem add_variable (h : r.Sound) {v : Variable} (hissued : v.Issued)
    (hunused : r.variableNamed? v.name = none) : (r.addVariable v).Sound where
  __ := h
  vars := nodup_append_of_find_eq_none h.vars hunused
  nonempty := by
    intro name hname
    rcases mem_term_names_add_variable hname with hold | rfl
    · exact h.nonempty name hold
    · exact (Text.is_word_iff.1 hissued.is_word).1
  issued := List.forall_mem_append.2 ⟨h.issued, List.forall_mem_singleton.2 hissued⟩

theorem add_predicate (h : r.Sound) {p : Predicate} (hword : Text.isWord p.name = true)
    (harity : 1 ≤ p.arity) (hunused : r.predicateNamed? p.name = none) :
    (r.addPredicate p).Sound where
  __ := h
  preds := nodup_append_of_find_eq_none h.preds hunused
  applicable := List.forall_mem_append.2
    ⟨h.applicable, List.forall_mem_singleton.2 ⟨hword, harity⟩⟩

theorem add_axiom (h : r.Sound) {f : Formula} (hissued : f.Issued) : (r.addAxiom f).Sound where
  __ := h
  axiomsIssued := List.forall_mem_append.2
    ⟨h.axiomsIssued, List.forall_mem_singleton.2 hissued⟩

end Sound

/-- Each symbol is what its name finds. -/
structure FoundByName (r : Registry) : Prop where
  consts : ∀ c ∈ r.consts, r.storedConstant? c.name = some c
  vars : ∀ v ∈ r.vars, r.variableNamed? v.name = some v
  preds : ∀ p ∈ r.preds, r.predicateNamed? p.name = some p
  skolems : ∀ s ∈ r.skolemSymbols, r.skolemArity? s.name = some s.arity

theorem Sound.found_by_name (h : r.Sound) : r.FoundByName where
  consts := fun _ hc => find_of_nodup h.consts hc
  vars := fun _ hv => find_of_nodup h.vars hv
  preds := fun _ hp => find_of_nodup h.preds hp
  skolems := fun _ hs => congrArg (Option.map _) (find_of_nodup h.skolems hs)

end Registry

open Registry (Sound)

theorem mint_constant_preserves_sound (base : String) : (mintConstant base).Preserves Sound := by
  intro r c r' h hr
  have hadds := mint_constant_run h
  cases h
  refine hr.grows hadds.grows ?_ ?_
  · simp [hadds.vars]
  · simp [Registry.addedNames, hadds.consts, hadds.vars, hadds.skolems]

theorem mint_function_preserves_sound (base : String) (args : List Term) :
    (mintFunction base args).Preserves Sound := by
  intro r t r' h hr
  obtain ⟨name, ht, hadds⟩ := mint_function_run h
  cases h
  cases ht
  refine hr.grows hadds.grows ?_ ?_
  · simp [hadds.vars]
  · simp [Registry.addedNames, hadds.consts, hadds.vars, hadds.skolems]

theorem fresh_variable_preserves_sound {v : Variable} (hv : v.Issued) :
    (freshVariable v).Preserves Sound := by
  intro r w r' h hr
  obtain ⟨_, -, hadds⟩ := fresh_variable_run h
  have hw : w.Issued := hv.copy h
  refine hr.grows hadds.grows ?_ ?_
  · simpa [hadds.vars] using hw
  · have := (Text.is_word_iff.1 hw.is_word).1
    simpa [Registry.addedNames, hadds.consts, hadds.vars, hadds.skolems]

/-- What is handed to an admissible operation leaves registries sound. -/
theorem maintains_sound (hop : op.Admissible) : op.Maintains Sound where
  cleared := fun _ => .empty
  definedConst := by
    intro name _ r c r' h hr
    obtain ⟨hword, hname, hunused, rfl⟩ := define_constant_yields h
    refine hr.add_constant ?_ hunused
    rw [hname]
    exact Text.capitalize_ne_empty (Text.is_word_iff.1 hword).1
  definedVar := by
    intro name domain _ r v r' h hr
    obtain ⟨-, -, -, hunused, rfl⟩ := define_variable_yields h
    exact hr.add_variable ⟨domain, .defined h⟩ hunused
  definedPred := by
    intro name arity _ r p r' h hr
    obtain ⟨hword, rfl, harity, hunused, rfl⟩ := define_predicate_yields h
    exact hr.add_predicate hword harity hunused
  statement := by
    rintro s rfl r u r' h hr
    obtain ⟨f, rfl, rfl⟩ := assert_yields h
    exact hr.add_axiom hop
  copy := fun v hv => fresh_variable_preserves_sound (hop.templates v hv)
  axiomCopy := fun _ _ r hr f hf v hv =>
    fresh_variable_preserves_sound (hr.axiomsIssued f hf v (List.mem_append_left _ hv))
  mintedConst := fun base _ => mint_constant_preserves_sound base
  mintedFunc := fun base _ => mint_function_preserves_sound base

theorem run_sound (hops : ∀ op ∈ ops, op.Admissible) (h : r.Sound) : (run ops r).Sound :=
  run_preserves (fun op hop => maintains_sound (hops op hop)) h

end Clausal
