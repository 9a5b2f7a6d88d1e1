import Clausal.Proofs.Attempt
import Clausal.Proofs.Skolem.Pending

/-!
# Successful Skolemizations

`Skolemizes.induction` goes through the successful walks, one case for each shape of formula. An
existential mints a Skolem term for each open variable (`MintsTerms`) and then makes one copy of its
body for each choice of constants; `Replaces` says what takes the place of its variables in a copy.
-/

namespace Clausal

open Variable (names)

/-! ## Skolem terms -/

/-- The term is a new constant if there are no universal variables, or else a new function applied
to them; it is the only symbol added. -/
inductive MintsTerm (us : List Variable) (r : Registry) : Term → Registry → Prop where
  | const {r' : Registry} (c : Constant) : us = [] → r.Adds r' [c] [] [] →
      MintsTerm us r (.const c) r'
  | func {r' : Registry} (name : String) : us ≠ [] → r.Adds r' [] [] [⟨name, us.length⟩] →
      MintsTerm us r (.skolem name (us.map .var)) r'

section Terms

variable {cfg : Config} {us vs : List Variable} {r r' : Registry} {t : Term} {p : Pending}

namespace MintsTerm

theorem grows (h : MintsTerm us r t r') : r.Grows r' := by
  cases h with
  | const _ _ hadds | func _ _ hadds => exact hadds.grows

/-- The Skolem term holds the universal variables. -/
theorem vars_eq (h : MintsTerm us r t r') : t.vars = us := by
  cases h with
  | const c hus => rw [Term.vars, hus]
  | func => simp [Term.vars, List.flatMap_map]

/-- A Skolem term mentions the symbol that was added and the universal variables. -/
theorem symbols_subset (h : MintsTerm us r t r') {S : List Symbol}
    (hus : ∀ v ∈ us, v.symbols ⊆ S) (hadded : r.addedSymbols r' ⊆ S) : t.symbols ⊆ S := by
  cases h with
  | const c _ hadds =>
      rw [Term.symbols, List.cons_subset]
      refine ⟨hadded ?_, List.nil_subset _⟩
      simp [Registry.addedSymbols, hadds.consts]
  | func name _ hadds =>
      rw [Term.symbols, Term.symbols_all_eq, List.cons_subset, flat_map_subset_iff]
      refine ⟨hadded ?_, fun t ht => ?_⟩
      · simp [Registry.addedSymbols, hadds.skolems]
      · obtain ⟨v, hv, rfl⟩ := List.mem_map.1 ht
        exact hus v hv

end MintsTerm

/-- The variables get Skolem terms one after the other. -/
abbrev MintsTerms (us : List Variable) : List Variable → Registry → Pending → Registry → Prop :=
  Threads fun v r xb r' => xb.1 = v ∧ MintsTerm us r xb.2 r'

namespace MintsTerms

theorem grows (h : MintsTerms us vs r p r') : r.Grows r' :=
  h.preserves .refl .trans fun _ _ _ _ _ hstep => hstep.2.grows

theorem map_fst (h : MintsTerms us vs r p r') : p.map (·.1) = vs :=
  (h.map_eq fun _ _ _ _ hstep => hstep.1).trans (List.map_id vs)

theorem terms_over (h : MintsTerms us vs r p r') : p.Over us := by
  intro xb hxb v hv
  obtain ⟨_, _, _, _, _, hmints⟩ := h.exists_of_mem hxb
  exact hmints.vars_eq ▸ hv

theorem symbols_subset (h : MintsTerms us vs r p r') {S : List Symbol}
    (hus : ∀ v ∈ us, v.symbols ⊆ S) (hadded : r.addedSymbols r' ⊆ S) : p.symbols ⊆ S := by
  induction h with
  | nil => exact List.nil_subset _
  | cons hstep hrest ih =>
      have hfirst := Registry.Grows.added_symbols_left hstep.2.grows (grows hrest)
      have hlater := Registry.Grows.added_symbols_right hstep.2.grows (grows hrest)
      exact List.append_subset.2 ⟨hstep.2.symbols_subset hus (List.Subset.trans hfirst hadded),
        ih (List.Subset.trans hlater hadded)⟩

end MintsTerms

theorem skolem_term_yields {v : Variable} (h : (skolemTerm cfg us v).Yields r t r') :
    MintsTerm us r t r' := by
  unfold skolemTerm at h
  split at h
  · next hempty =>
      simp only [Attempt.yields_bind, Attempt.yields_action, Attempt.yields_pure] at h
      obtain ⟨c, _, hmint, rfl, rfl⟩ := h
      exact .const c (List.isEmpty_iff.1 hempty) (mint_constant_run hmint)
  · next hempty =>
      split at h
      · obtain ⟨name, rfl, hadds⟩ := mint_function_run (Attempt.yields_action.1 h)
        rw [List.length_map] at hadds
        exact .func name (fun hnil => hempty (List.isEmpty_iff.2 hnil)) hadds
      · exact absurd h Attempt.not_yields_throw

theorem skolem_terms_yields (h : (skolemTerms cfg us vs).Yields r p r') :
    MintsTerms us (vs.filter fun v => !v.isClosedWorld) r p r' := by
  refine (Attempt.yields_map_m.1 h).mono fun v _ r xb r' hstep => ?_
  simp only [Attempt.yields_bind, Attempt.yields_pure] at hstep
  obtain ⟨t, _, hterm, rfl, rfl⟩ := hstep
  exact ⟨rfl, skolem_term_yields hterm⟩

/-- Counting the copies leaves the registry alone. -/
theorem check_expansion_yields {copies n : Nat} {ds : List DomainOf}
    (h : (checkExpansion cfg copies ds).Yields r n r') :
    n = countCopies copies (ds.map (·.2.length)) ∧ r' = r := by
  unfold checkExpansion at h
  split at h
  · next hempty =>
      rw [List.isEmpty_iff.1 hempty]
      exact Attempt.yields_pure.1 h
  · dsimp only at h
    split at h
    · simp only [Attempt.yields_bind, Attempt.not_yields_throw, false_and, and_false,
        exists_false] at h
    · exact Attempt.yields_pure.1 h

end Terms

/-! ## Walks -/

/-- The choices that the body of an existential over `vs` is copied for: when there are none, one
that chooses nothing. -/
def copiesOf (vs : List Variable) : List Pending :=
  match choices (closedWorld vs) with
  | [] => [[]]
  | choice :: rest => choice :: rest

theorem copies_of_ne_nil {vs : List Variable} (h : choices (closedWorld vs) ≠ []) :
    copiesOf vs = choices (closedWorld vs) := by
  unfold copiesOf
  split
  · next hnil => exact absurd hnil h
  · next hcons => exact hcons.symm

/-- Without empty domains the copies are those of the choices. -/
theorem copies_of_eq {vs : List Variable} (h : ∀ v ∈ vs, v.domain ≠ some []) :
    copiesOf vs = choices (closedWorld vs) :=
  copies_of_ne_nil (choices_ne_nil (closed_world_inhabited h))

/-- There is at least one copy. -/
theorem exists_copy (vs : List Variable) : ∃ choice, choice ∈ copiesOf vs := by
  unfold copiesOf
  split
  · exact ⟨[], List.mem_singleton.2 rfl⟩
  · exact ⟨_, List.mem_cons_self ..⟩

/-- A copy puts constants of their domains in place of closed-world variables. -/
theorem copy_chooses {vs : List Variable} {choice : Pending} (h : choice ∈ copiesOf vs)
    {xb : Variable × Term} (hxb : xb ∈ choice) :
    xb.1 ∈ vs ∧ ∃ cs, xb.1.domain = some cs ∧ ∃ c ∈ cs, xb.2 = .const c := by
  by_cases hempty : choices (closedWorld vs) = []
  · rw [copiesOf, hempty] at h
    cases List.mem_singleton.1 h
    cases hxb
  · rw [copies_of_ne_nil hempty] at h
    obtain ⟨d, hd, hvariable, c, hc, hterm⟩ := exists_left_of_forall₂ (mem_choices_iff.1 h) hxb
    obtain ⟨hmem, hdomain⟩ := mem_closed_world.1 hd
    exact ⟨hvariable ▸ hmem, d.2, hvariable ▸ hdomain, c, hc, hterm⟩

/-- What takes the place of the variables `vs` in one copy: terms over the universal variables,
and constants of their domains for closed-world variables. -/
structure Replaces (us vs : List Variable) (q : Pending) : Prop where
  termsOver : q.Over us
  keys : ∀ name, name ∈ q.keys ↔ name ∈ names vs
  member : ∀ xb ∈ q, xb.1 ∈ vs
  inDomain : ∀ xb ∈ q, ∀ cs, xb.1.domain = some cs → ∃ c ∈ cs, xb.2 = .const c

namespace Pending

variable {us vs : List Variable} {p terms choice : Pending} {r r' : Registry}

theorem Over.below (h : p.Over us) : Pending.Over (us ++ vs) (p.below vs) :=
  fun xb hxb v hv => List.mem_append_left _ (h xb (below_subset hxb) v hv)

/-- What is pending in a copy are terms over the universal variables again. -/
theorem Over.copy (h : p.Over us)
    (hterms : MintsTerms us (vs.filter fun v => !v.isClosedWorld) r terms r')
    (hchoice : choice ∈ copiesOf vs) : Pending.Over us (p.below vs ++ (terms ++ choice)) := by
  refine List.forall_mem_append.2 ⟨fun xb hxb => h xb (below_subset hxb),
    List.forall_mem_append.2 ⟨hterms.terms_over, fun xb hxb v hv => ?_⟩⟩
  obtain ⟨_, _, _, c, _, hterm⟩ := copy_chooses hchoice hxb
  rw [hterm] at hv
  cases hv

end Pending

/-- Each copy replaces all variables of the quantifier unless a domain is empty. -/
theorem copy_replaces {us vs : List Variable} {terms choice : Pending} {r r' : Registry}
    (hinhabited : ∀ v ∈ vs, v.domain ≠ some [])
    (hterms : MintsTerms us (vs.filter fun v => !v.isClosedWorld) r terms r')
    (hchoice : choice ∈ copiesOf vs) : Replaces us vs (terms ++ choice) := by
  have hfst := map_fst_choice (copies_of_eq hinhabited ▸ hchoice)
  have hvars : ∀ v, v ∈ (terms ++ choice).map (·.1) ↔ v ∈ vs := by
    intro v
    rw [List.map_append, hterms.map_fst, hfst, List.mem_append, List.mem_filter,
      mem_map_fst_closed_world, ← and_or_left]
    cases v.isClosedWorld <;> simp
  have hover := Pending.Over.copy (p := []) (fun _ h => absurd h List.not_mem_nil) hterms hchoice
  refine ⟨hover, fun name => ?_, fun xb hxb => ?_, fun xb hxb cs hdomain => ?_⟩
  · simp only [Pending.keys, names, List.mem_map, ← hvars, exists_exists_and_eq_and]
  · exact (hvars xb.1).1 (List.mem_map_of_mem hxb)
  · rcases List.mem_append.1 hxb with hxb | hxb
    · have hmem := List.mem_map_of_mem (f := fun xb : Variable × Term => xb.1) hxb
      rw [hterms.map_fst, List.mem_filter, Variable.isClosedWorld, hdomain] at hmem
      cases hmem.2
    · obtain ⟨_, cs', hdomain', c, hc, hterm⟩ := copy_chooses hchoice hxb
      cases hdomain.symm.trans hdomain'
      exact ⟨c, hc, hterm⟩

/-- Some walk, whatever it was told of copies further out, Skolemizes `f` below the universal
variables `us` with the replacements `p` pending. -/
def Skolemizes (cfg : Config) (us : List Variable) (p : Pending) (f : Formula) (r : Registry)
    (g : Formula) (r' : Registry) : Prop :=
  ∃ copies, (f.skolemWalk cfg us copies p).Yields r g r'

/-- Induction over successful walks, one case for each shape of formula that has a rule. -/
theorem Skolemizes.induction {cfg : Config}
    {motive : ∀ us p f r g r', Skolemizes cfg us p f r g r' → Prop}
    (atom : ∀ {us p r} (a : Atom) (h : Skolemizes cfg us p (.atom a) r (.atom (p.apply a)) r),
      motive _ _ _ _ _ _ h)
    (not : ∀ {us p r} (a : Atom)
      (h : Skolemizes cfg us p (.not (.atom a)) r (.not (.atom (p.apply a))) r),
      motive _ _ _ _ _ _ h)
    (binary : ∀ {us p c f f' g g' r mid r'} (_ : c = .and ∨ c = .or)
      (hf : Skolemizes cfg us p f r f' mid) (hg : Skolemizes cfg us p g mid g' r')
      (h : Skolemizes cfg us p (.binary c f g) r (.binary c f' g') r'),
      motive _ _ _ _ _ _ hf → motive _ _ _ _ _ _ hg → motive _ _ _ _ _ _ h)
    (all : ∀ {us p vs f f' r r'} (hf : Skolemizes cfg (us ++ vs) (p.below vs) f r f' r')
      (h : Skolemizes cfg us p (.all vs f) r (.all vs f') r'),
      motive _ _ _ _ _ _ hf → motive _ _ _ _ _ _ h)
    (ex : ∀ {us p vs f terms copies g r mid r'}
      (_ : MintsTerms us (vs.filter fun v => !v.isClosedWorld) r terms mid)
      (_ : Threads (fun choice r g r' =>
        ∃ hf : Skolemizes cfg us (p.below vs ++ (terms ++ choice)) f r g r',
          motive _ _ _ _ _ _ hf) (copiesOf vs) mid copies r')
      (_ : Formula.disjunction copies = some g)
      (h : Skolemizes cfg us p (.ex vs f) r g r'), motive _ _ _ _ _ _ h)
    {us : List Variable} {p : Pending} {f : Formula} {r : Registry} {g : Formula} {r' : Registry}
    (h : Skolemizes cfg us p f r g r') : motive us p f r g r' h := by
  obtain ⟨n, hrun⟩ := h
  induction f generalizing us n p r g r' with
  | atom a =>
      obtain ⟨rfl, rfl⟩ := Attempt.yields_pure.1 hrun
      exact atom a _
  | not f _ =>
      cases f with
      | atom a =>
          obtain ⟨rfl, rfl⟩ := Attempt.yields_pure.1 hrun
          exact not a _
      | not | binary | quant => exact absurd hrun Attempt.not_yields_throw
  | binary c f₁ f₂ ih₁ ih₂ =>
      cases c with
      | and | or =>
          have hparts := hrun
          simp only [Formula.skolemWalk, Attempt.yields_bind, Attempt.yields_pure] at hparts
          obtain ⟨g₁, mid, h₁, g₂, _, h₂, rfl, rfl⟩ := hparts
          exact binary (by simp) ⟨n, h₁⟩ ⟨n, h₂⟩ _ (ih₁ n h₁) (ih₂ n h₂)
      | implies | iff => exact absurd hrun Attempt.not_yields_throw
  | quant q vs f ih =>
      cases q with
      | all =>
          have hbody := hrun
          simp only [Formula.skolemWalk, Attempt.yields_bind, Attempt.yields_pure] at hbody
          obtain ⟨g, _, hbody, rfl, rfl⟩ := hbody
          exact all ⟨n, hbody⟩ _ (ih n hbody)
      | ex =>
          have hparts := hrun
          simp only [Formula.skolemWalk, Attempt.yields_bind, Attempt.yields_map_m] at hparts
          obtain ⟨terms, mid, hterms, k, _, hcheck, copies, _, hcopies, hlast⟩ := hparts
          obtain ⟨-, rfl⟩ := check_expansion_yields hcheck
          have hterms := skolem_terms_yields hterms
          have hcopies := hcopies.mono (S := fun choice r g r' =>
            ∃ hf : Skolemizes cfg us (p.below vs ++ (terms ++ choice)) f r g r',
              motive _ _ _ _ _ _ hf) fun choice _ r g r' hstep =>
            have hstep := List.append_assoc .. ▸ hstep
            ⟨⟨k, hstep⟩, ih k hstep⟩
          split at hlast
          · next joined hjoin =>
              -- something was joined, so there are choices, and the copies are theirs
              obtain ⟨rfl, rfl⟩ := Attempt.yields_pure.1 hlast
              refine ex hterms ?_ hjoin _
              rwa [copies_of_ne_nil fun hempty => ?_]
              rw [hempty] at hcopies
              cases hcopies
              cases hjoin
          · next hjoin =>
              -- nothing was copied, so the walk goes on with the body itself
              cases copies with
              | cons => cases hjoin
              | nil =>
                  have hempty := List.length_eq_zero_iff.1 hcopies.length_eq.symm
                  rw [hempty] at hcopies
                  cases hcopies
                  have hjoin : Formula.disjunction [g] = some g := rfl
                  refine ex hterms ?_ hjoin _
                  rw [copiesOf, hempty]
                  refine .cons ?_ (.nil _)
                  rw [List.append_nil]
                  exact ⟨⟨k, hlast⟩, ih k hlast⟩

namespace Formula

/-! ## Disjunctions of copies -/

section Disjunction

variable {g : Formula} {fs : List Formula}

/-- What joined formulas pass on, a disjunction has when all its parts have it. -/
theorem disjunction_preserves {P : Formula → Prop} (hor : ∀ f g, P f → P g → P (or f g))
    (hparts : ∀ f ∈ fs, P f) (h : disjunction fs = some g) : P g := by
  cases fs with
  | nil => cases h
  | cons f fs =>
      cases h
      induction fs generalizing f with
      | nil => exact hparts f (List.mem_cons_self ..)
      | cons f' fs ih =>
          simp only [List.forall_mem_cons] at hparts ih
          exact ih _ ⟨hor f f' hparts.1 hparts.2.1, hparts.2.2⟩

/-- What is listed from left to right, a disjunction lists for one part after the other. -/
theorem flat_map_of_disjunction {α : Type} {m : Formula → List α}
    (hor : ∀ f g, m (or f g) = m f ++ m g) (h : disjunction fs = some g) :
    m g = fs.flatMap m := by
  cases fs with
  | nil => cases h
  | cons f fs =>
      cases h
      induction fs generalizing f with
      | nil => simp
      | cons f' fs ih => rw [List.foldl_cons, ih]; simp [hor]

end Disjunction

end Formula

end Clausal
