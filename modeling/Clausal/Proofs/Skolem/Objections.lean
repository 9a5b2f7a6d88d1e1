import Clausal.Proofs.Skolem.Sites
import Clausal.Proofs.Skolem.Truth

/-!
# What Skolemization objects to

Whether a formula is Skolemized, and for which reason it is not, is decided by the formula as it was
given: the first objection to one of its nodes in preorder ends the walk (`skolemize_decided`). The
walk itself goes through one copy after the other, but the copies of a subformula stand below the
same universal variables, so all of them are objected to alike, whatever the registry and the
pending replacements (`skolem_walk_decided`).
-/

namespace Clausal

theorem find_some_cons {α β : Type} {o : α → Option β} {x : α} {xs : List α} :
    (x :: xs).findSome? o = (o x).or (xs.findSome? o) := by
  rw [List.findSome?_cons]
  cases o x <;> rfl

/-! ## Attempts decided beforehand -/

namespace Attempt

variable {α β : Type} {x : Attempt α} {k : α → Attempt β} {o o' : Option Error}

/-- From every registry the attempt fails with the error that `o` holds, or succeeds when it holds
none. -/
def Decided (x : Attempt α) (o : Option Error) : Prop :=
  ∀ r, match o with
    | some e => x.Fails r e
    | none => ∃ a r', x.Yields r a r'

namespace Decided

theorem pure {a : α} : (Pure.pure a : Attempt α).Decided none :=
  fun r => ⟨a, r, yields_pure.2 ⟨rfl, rfl⟩⟩

theorem throw {e : Error} : (MonadExcept.throw e : Attempt α).Decided (some e) :=
  fun _ => fails_throw.2 rfl

theorem action {y : Action α} : (liftM y : Attempt α).Decided none :=
  fun _ => ⟨_, _, yields_action.2 rfl⟩

/-- What succeeds was not objected to. -/
theorem eq_none {a : α} {r r' : Registry} (hx : x.Decided o) (h : x.Yields r a r') : o = none := by
  have hdecided := hx r
  cases o with
  | none => rfl
  | some e => cases hdecided.symm.trans h.1

/-- Of two steps the first objection counts. -/
theorem bind (hx : x.Decided o) (hk : ∀ r a r', x.Yields r a r' → (k a).Decided o') :
    (x >>= k).Decided (o.or o') := by
  intro r
  cases o with
  | some e => exact fails_bind.2 (.inl (hx r))
  | none =>
      obtain ⟨a, mid, hyields⟩ := hx r
      have hrest := hk r a mid hyields mid
      cases o' with
      | some e => exact fails_bind.2 (.inr ⟨a, mid, hyields, hrest⟩)
      | none =>
          obtain ⟨b, r', hb⟩ := hrest
          exact ⟨b, r', yields_bind.2 ⟨a, mid, hyields, hb⟩⟩

/-- A second step that cannot fail does not matter. -/
theorem bind_ok (hx : x.Decided o) (hk : ∀ r a r', x.Yields r a r' → (k a).Decided none) :
    (x >>= k).Decided o := by
  have hboth := hx.bind hk
  rwa [Option.or_none] at hboth

theorem returning {h : α → β} (hx : x.Decided o) : (x >>= fun a => Pure.pure (h a)).Decided o :=
  hx.bind_ok fun _ _ _ _ => pure

/-- Along a list the first objection counts. -/
theorem map_m {o : α → Option Error} {xs : List α} (hsteps : ∀ x ∈ xs, (k x).Decided (o x)) :
    (xs.mapM k).Decided (xs.findSome? o) := by
  induction xs with
  | nil => exact pure
  | cons x xs ih =>
      obtain ⟨hx, hxs⟩ := List.forall_mem_cons.1 hsteps
      have hall := hx.bind fun _ y _ _ => (ih hxs).returning (h := fun ys => y :: ys)
      rw [List.mapM_cons, find_some_cons]
      exact hall

/-- Steps that are all objected to alike, one of them at least, are objected to as each of them. -/
theorem map_m_same {xs : List α} (hne : xs ≠ []) (hsteps : ∀ x ∈ xs, (k x).Decided o) :
    (xs.mapM k).Decided o := by
  have hall := map_m (o := fun _ => o) hsteps
  cases xs with
  | nil => exact absurd rfl hne
  | cons x xs =>
      cases o with
      | some e => exact hall
      | none => rwa [List.findSome?_eq_none_iff.2 fun _ _ => rfl] at hall

end Decided

end Attempt

/-! ## Objections -/

/-- Below universal variables there is no term for a variable without Skolem functions. -/
def functionObjection (cfg : Config) (universals : List Variable) (v : Variable) : Option Error :=
  if universals.isEmpty || cfg.skolemFunctions then none
  else some (.skolemFunctionUnsupported v.sourceName)

/-- Closed-world variables are expanded up to the limit. -/
def expansionObjection (cfg : Config) (required : Nat) (vs : List Variable) : Option Error :=
  if vs.any Variable.isClosedWorld && decide (cfg.expansionLimit < required) then
    some (.expansionTooLarge required cfg.expansionLimit)
  else none

/-- What Skolemization objects to at a node, without looking further down. -/
def Site.objection (cfg : Config) (s : Site) : Option Error :=
  match s.node with
  | .not (.atom _) => none
  | .not _ => some (.unsupportedShape .negatedCompound .skolemization)
  | .implies _ _ => some (.unsupportedShape .implication .skolemization)
  | .iff _ _ => some (.unsupportedShape .equivalence .skolemization)
  | .ex vs _ => ((vs.find? fun v => !v.isClosedWorld).bind (functionObjection cfg s.universals)).or
    (expansionObjection cfg (min (s.copies * domainProduct vs) copyCap) vs)
  | _ => none

/-- The first objection to a node of the formula in preorder. -/
def Formula.firstObjection (cfg : Config) (f : Formula) : Option Error :=
  (f.sites [] 1).findSome? (Site.objection cfg)

variable {cfg : Config} {us vs : List Variable} {n : Nat}

open Attempt (Decided)

theorem skolem_term_decided {v : Variable} :
    (skolemTerm cfg us v).Decided (functionObjection cfg us v) := by
  unfold skolemTerm functionObjection
  cases us.isEmpty with
  | true => exact .returning .action
  | false =>
      cases cfg.skolemFunctions with
      | true => exact .action
      | false => exact .throw

/-- The first open variable is objected to, if Skolem functions are. -/
theorem skolem_terms_decided : (skolemTerms cfg us vs).Decided
    ((vs.find? fun v => !v.isClosedWorld).bind (functionObjection cfg us)) := by
  have hterms : (skolemTerms cfg us vs).Decided
      ((vs.filter fun v => !v.isClosedWorld).findSome? (functionObjection cfg us)) :=
    .map_m fun v _ => .returning skolem_term_decided
  have hfirst : ∀ xs : List Variable, xs.findSome? (functionObjection cfg us) =
      xs.head?.bind (functionObjection cfg us) := by
    intro xs
    cases xs with
    | nil => rfl
    | cons x xs =>
        unfold functionObjection
        split <;> simp
  rwa [hfirst, List.head?_filter] at hterms

theorem any_is_closed_world : vs.any Variable.isClosedWorld = !(closedWorld vs).isEmpty := by
  induction vs with
  | nil => rfl
  | cons v vs ih =>
      rw [List.any_cons, ih]
      cases hdomain : v.domain <;> simp [closedWorld, Variable.isClosedWorld, hdomain]

theorem check_expansion_decided (h : ∀ v ∈ vs, v.domain ≠ some []) :
    (checkExpansion cfg (min n copyCap) (closedWorld vs)).Decided
      (expansionObjection cfg (min (n * domainProduct vs) copyCap) vs) := by
  unfold checkExpansion expansionObjection
  rw [any_is_closed_world, count_copies_closed_world h]
  cases (closedWorld vs).isEmpty with
  | true => exact .pure
  | false =>
      simp only [Bool.not_false, Bool.true_and, decide_eq_true_eq, Bool.false_eq_true, if_false]
      by_cases hlimit : cfg.expansionLimit < min (n * domainProduct vs) copyCap
      · rw [if_pos hlimit, if_pos hlimit]
        exact .bind .action fun _ _ _ _ => .returning .throw
      · rw [if_neg hlimit, if_neg hlimit]
        exact .pure

/-- However a walk came to a formula, it ends with the first objection to one of its nodes. -/
theorem skolem_walk_decided {f : Formula} (hf : f.RangesInhabited) (p : Pending) :
    (f.skolemWalk cfg us (min n copyCap) p).Decided
      ((f.sites us n).findSome? (Site.objection cfg)) := by
  induction f generalizing us n p with
  | atom => exact .pure
  | not f _ =>
      cases f with
      | atom => exact .pure
      | not | binary | quant => exact .throw
  | binary c f g ihf ihg =>
      obtain ⟨hleft, hright⟩ := List.forall_mem_append.1 hf
      cases c with
      | and | or =>
          simp only [Formula.sites, List.findSome?_cons, List.findSome?_append, Site.objection]
          exact (ihf hleft p).bind fun _ _ _ _ => (ihg hright p).returning
      | implies | iff => exact .throw
  | quant q vs f ih =>
      obtain ⟨hvs, hbody⟩ := List.forall_mem_append.1 hf
      cases q with
      | all => exact (ih hbody _).returning
      | ex =>
          rw [Formula.sites, find_some_cons]
          dsimp only [Site.objection]
          rw [Option.or_assoc]
          refine skolem_terms_decided.bind fun _ terms _ _ => ?_
          refine (check_expansion_decided hvs).bind fun _ m _ hcount => ?_
          obtain ⟨rfl, -⟩ := check_expansion_yields hcount
          rw [count_copies_closed_world hvs]
          have hchoices := choices_ne_nil (closed_world_inhabited hvs)
          -- each copy is decided like the body, and there is one, so that the disjunction exists
          refine (Decided.map_m_same hchoices fun choice _ => ih hbody _).bind_ok ?_
          intro _ instances _ hinstances
          cases instances with
          | cons g gs => exact .pure
          | nil =>
              have hlength := (Attempt.yields_map_m.1 hinstances).length_eq
              exact absurd (List.length_eq_zero_iff.1 hlength.symm) hchoices

/-- The outcome of Skolemization is decided by the formula as it was given, whatever the registry:
the first objection to a node in preorder is the error, and without one it succeeds. -/
theorem skolemize_decided (cfg : Config) {f : Formula} (hf : f.RangesInhabited) (r : Registry) :
    match f.firstObjection cfg with
    | some e => (f.skolemize cfg).outcome r = .error e
    | none => ∃ g, (f.skolemize cfg).outcome r = .ok g := by
  have hwalk : (f.skolemWalk cfg [] 1 []).Decided (f.firstObjection cfg) :=
    skolem_walk_decided (n := 1) hf []
  have hdecided := hwalk r
  rw [Formula.skolemize, Attempt.outcome_atomically]
  cases h : f.firstObjection cfg with
  | some e => rwa [h] at hdecided
  | none =>
      rw [h] at hdecided
      obtain ⟨g, _, hyields⟩ := hdecided
      exact ⟨g, hyields.1⟩

/-- Below a closed-world variable, every `x` has some `y` and another choice for that variable. -/
def Sample.nested : Formula :=
  .ex [p] (.and (holding "P" [.var p])
    (.all [x] (.ex [y, p] (holding "R" [.var x, .var y, .var p]))))

open Sample in
/-- The inner existential is objected to, for its Skolem function or for its four copies; where two
copies are too many already the outer one is, and by default none. -/
theorem skolemize_decided_nested :
    let off : Config := { skolemFunctions := false }
    nested.RangesInhabited ∧
      (nested.skolemize off).outcome registry = .error (.skolemFunctionUnsupported "y") ∧
      (nested.skolemize (.ofLimit 3)).outcome registry = .error (.expansionTooLarge 4 3) ∧
      (nested.skolemize { off with expansionLimit := 1 }).outcome registry =
        .error (.expansionTooLarge 2 1) ∧
      ∃ g, (nested.skolemize {}).outcome registry = .ok g := by
  intro off
  have hinhabited : nested.RangesInhabited := by decide
  exact ⟨hinhabited, skolemize_decided off hinhabited registry,
    skolemize_decided (.ofLimit 3) hinhabited registry,
    skolemize_decided { off with expansionLimit := 1 } hinhabited registry,
    skolemize_decided {} hinhabited registry⟩

end Clausal
