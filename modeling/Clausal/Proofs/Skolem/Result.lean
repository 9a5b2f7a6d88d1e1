import Clausal.Proofs.Skolem.Walk

/-!
# Results of Skolemization

What a successful walk keeps and what it makes of the quantifiers: an existential goes away, and a
universal stays once for each copy that holds it (`Skolemizes.binders_eq`). The result is
registered when the formula was, and no new name is free in it.
-/

namespace Clausal

open Variable (names)
open Formula (disjunction_preserves flat_map_of_disjunction)

/-- The universal variables of a formula, once for each copy that Skolemization makes of them. -/
def Formula.expandedUniversals : Formula → List Variable
  | atom _ => []
  | not f => f.expandedUniversals
  | binary _ f g => f.expandedUniversals ++ g.expandedUniversals
  | quant .all vs f => vs ++ f.expandedUniversals
  | quant .ex vs f => (copiesOf vs).flatMap fun _ => f.expandedUniversals

/-- A choice puts in place constants of the domains only. -/
theorem choice_symbols_subset {S : List Symbol} {vs : List Variable} {choice : Pending}
    (hvs : ∀ v ∈ vs, v.symbols ⊆ S) (hchoice : choice ∈ copiesOf vs) : choice.symbols ⊆ S := by
  refine flat_map_subset_iff.2 fun xb hxb => ?_
  obtain ⟨hv, cs, hdomain, c, hc, hterm⟩ := copy_chooses hchoice hxb
  rw [hterm, Term.symbols, List.cons_subset]
  refine ⟨hvs xb.1 hv (List.mem_cons_of_mem _ ?_), List.nil_subset _⟩
  exact List.mem_map.2 ⟨c, by simpa [hdomain] using hc, rfl⟩

/-- The formula, the universal variables above it and the pending terms mention symbols of `S`
only. -/
structure WalkWithin (S : List Symbol) (us : List Variable) (p : Pending) (f : Formula) :
    Prop where
  formula : f.symbols ⊆ S
  universals : ∀ v ∈ us, v.symbols ⊆ S
  terms : p.symbols ⊆ S

namespace WalkWithin

variable {S T : List Symbol} {us vs : List Variable} {p terms choice : Pending} {f g : Formula}
  {c : Connective} {q : Quantifier}

/-- Nothing is pending above a formula. -/
theorem top (h : f.symbols ⊆ S) : WalkWithin S [] [] f :=
  ⟨h, fun _ h => absurd h List.not_mem_nil, List.nil_subset _⟩

theorem mono (h : WalkWithin S us p f) (hsubset : S ⊆ T) : WalkWithin T us p f where
  formula := List.Subset.trans h.formula hsubset
  universals := fun v hv => List.Subset.trans (h.universals v hv) hsubset
  terms := List.Subset.trans h.terms hsubset

theorem left (h : WalkWithin S us p (.binary c f g)) : WalkWithin S us p f :=
  ⟨(List.append_subset.1 h.formula).1, h.universals, h.terms⟩

theorem right (h : WalkWithin S us p (.binary c f g)) : WalkWithin S us p g :=
  ⟨(List.append_subset.1 h.formula).2, h.universals, h.terms⟩

/-- Below a quantifier less is pending. -/
theorem body (h : WalkWithin S us p (.quant q vs f)) : WalkWithin S us (p.below vs) f where
  formula := (List.append_subset.1 h.formula).2
  universals := h.universals
  terms := flat_map_subset_iff.2 fun xb hxb =>
    flat_map_subset_iff.1 h.terms xb (Pending.below_subset hxb)

/-- More universal variables may stand above. -/
theorem enter (h : WalkWithin S us p f) (hvs : ∀ v ∈ vs, v.symbols ⊆ S) :
    WalkWithin S (us ++ vs) p f :=
  ⟨h.formula, List.forall_mem_append.2 ⟨h.universals, hvs⟩, h.terms⟩

/-- More replacements may be pending. -/
theorem extend (h : WalkWithin S us p f) (hterms : terms.symbols ⊆ S) :
    WalkWithin S us (p ++ terms) f where
  formula := h.formula
  universals := h.universals
  terms := by
    rw [Pending.symbols, List.flatMap_append]
    exact List.append_subset.2 ⟨h.terms, hterms⟩

theorem bound (h : WalkWithin S us p (.quant q vs f)) : ∀ v ∈ vs, v.symbols ⊆ S :=
  flat_map_subset_iff.1 (List.append_subset.1 h.formula).1

theorem below (h : WalkWithin S us p (.all vs f)) : WalkWithin S (us ++ vs) (p.below vs) f :=
  h.body.enter h.bound

/-- Below an existential the Skolem terms and the constants chosen are mentioned as well. -/
theorem copy (h : WalkWithin S us p (.ex vs f)) (hterms : terms.symbols ⊆ S)
    (hchoice : choice ∈ copiesOf vs) : WalkWithin S us (p.below vs ++ (terms ++ choice)) f := by
  refine h.body.extend ?_
  rw [Pending.symbols, List.flatMap_append]
  exact List.append_subset.2 ⟨hterms, choice_symbols_subset h.bound hchoice⟩

end WalkWithin

/-- The formula, the universal variables above it and the pending terms are registered. -/
abbrev WalkRegistered (us : List Variable) (p : Pending) (f : Formula) (r : Registry) : Prop :=
  WalkWithin r.symbols us p f

namespace WalkRegistered

variable {us vs : List Variable} {p terms choice : Pending} {f : Formula} {r mid : Registry}

/-- Below an existential the Skolem terms and the constants chosen are registered as well. -/
theorem copy (h : WalkRegistered us p (.ex vs f) r)
    (hterms : MintsTerms us (vs.filter fun v => !v.isClosedWorld) r terms mid)
    (hchoice : choice ∈ copiesOf vs) :
    WalkRegistered us (p.below vs ++ (terms ++ choice)) f mid :=
  have h := h.mono hterms.grows.symbols_subset
  WalkWithin.copy h (hterms.symbols_subset h.universals hterms.grows.added_symbols_subset) hchoice

end WalkRegistered

namespace Skolemizes

variable {cfg : Config} {us : List Variable} {p : Pending} {f g : Formula} {r r' : Registry}

theorem grows (h : Skolemizes cfg us p f r g r') : r.Grows r' := by
  induction h using Skolemizes.induction with
  | atom | not => exact .refl _
  | binary _ _ _ _ ihf ihg => exact ihf.trans ihg
  | all _ _ ih => exact ih
  | ex hterms hcopies =>
      exact hterms.grows.trans (hcopies.preserves .refl .trans fun _ _ _ _ _ ⟨_, ih⟩ => ih)

/-- A walk brings in no symbols but those it adds. -/
theorem symbols_subset (h : Skolemizes cfg us p f r g r') {S : List Symbol}
    (hf : WalkWithin S us p f) (hadded : r.addedSymbols r' ⊆ S) : g.symbols ⊆ S := by
  induction h using Skolemizes.induction with
  | atom | not => exact Pending.symbols_apply_subset hf.formula hf.terms
  | binary _ hfirst hsecond _ ihf ihg =>
      have hleft := Registry.Grows.added_symbols_left hfirst.grows hsecond.grows
      have hright := Registry.Grows.added_symbols_right hfirst.grows hsecond.grows
      exact List.append_subset.2 ⟨ihf hf.left (List.Subset.trans hleft hadded),
        ihg hf.right (List.Subset.trans hright hadded)⟩
  | all _ _ ih =>
      exact List.append_subset.2 ⟨(List.append_subset.1 hf.formula).1, ih hf.below hadded⟩
  | @ex us p vs f terms copies g r mid r' hterms hcopies hjoin =>
      refine disjunction_preserves (P := fun g => g.symbols ⊆ S)
        (fun _ _ hf hg => List.append_subset.2 ⟨hf, hg⟩) (fun g hg => ?_) hjoin
      have hgrows : mid.Grows r' := hcopies.preserves .refl .trans fun _ _ _ _ _ ⟨h, _⟩ => h.grows
      obtain ⟨choice, hchoice, r₁, r₂, hbefore, ⟨hcopy, ih⟩, hafter⟩ :=
        hcopies.exists_step_of_mem .refl .trans (fun _ _ _ _ ⟨h, _⟩ => h.grows) hg
      have hminted := hterms.symbols_subset hf.universals <|
        List.Subset.trans (Registry.Grows.added_symbols_left hterms.grows hgrows) hadded
      -- what the copy adds the whole walk adds
      have hcopied := Registry.Grows.added_symbols_left hcopy.grows hafter
      have hcopied' := Registry.Grows.added_symbols_right (hterms.grows.trans hbefore)
        (hcopy.grows.trans hafter)
      exact ih (hf.copy hminted hchoice)
        (List.Subset.trans (List.Subset.trans hcopied hcopied') hadded)

/-- A walk leaves a registered formula registered. -/
theorem registered (h : Skolemizes cfg us p f r g r') (hf : WalkRegistered us p f r) :
    g.Registered r' :=
  h.symbols_subset (hf.mono h.grows.symbols_subset) h.grows.added_symbols_subset

/-- A walk ends in a negation normal form without existentials. -/
theorem shape (h : Skolemizes cfg us p f r g r') :
    g.isNnf = true ∧ g.containsExistential = false := by
  induction h using Skolemizes.induction with
  | atom | not => exact ⟨rfl, rfl⟩
  | binary hc _ _ _ ihf ihg =>
      rcases hc with rfl | rfl <;>
        exact ⟨Bool.and_eq_true_iff.2 ⟨ihf.1, ihg.1⟩, Bool.or_eq_false_iff.2 ⟨ihf.2, ihg.2⟩⟩
  | all _ _ ih => exact ih
  | ex _ hcopies hjoin =>
      refine disjunction_preserves (P := fun g => g.isNnf = true ∧ g.containsExistential = false)
        (fun _ _ hf hg => ?_) (fun g hg => ?_) hjoin
      · exact ⟨Bool.and_eq_true_iff.2 ⟨hf.1, hg.1⟩, Bool.or_eq_false_iff.2 ⟨hf.2, hg.2⟩⟩
      · obtain ⟨_, _, _, _, _, ih⟩ := hcopies.exists_of_mem hg
        exact ih

/-- A walk binds each universal variable once for each copy. -/
theorem binders_eq (h : Skolemizes cfg us p f r g r') : g.binders = f.expandedUniversals := by
  induction h using Skolemizes.induction with
  | atom | not => rfl
  | binary _ _ _ _ ihf ihg => rw [Formula.binders, Formula.expandedUniversals, ihf, ihg]
  | all _ _ ih => rw [Formula.binders, Formula.expandedUniversals, ih]
  | ex _ hcopies hjoin =>
      rw [flat_map_of_disjunction (m := Formula.binders) (fun _ _ => rfl) hjoin,
        Formula.expandedUniversals, List.flatMap_def, List.flatMap_def,
        hcopies.map_eq fun _ _ _ _ hcopy => hcopy.2]

/-- An occurrence after the walk is one from before, or that of a universal variable in a Skolem
term. -/
theorem occurrences (h : Skolemizes cfg us p f r g r') (hp : p.Over us) :
    ∀ v ∈ g.occurrences, v ∈ us ∨ v ∈ f.occurrences ∨ v ∈ f.binders := by
  induction h using Skolemizes.induction with
  | atom | not =>
      exact fun v hv => (Pending.mem_vars_apply hp hv).imp_right fun hv => .inl hv.1
  | binary _ _ _ _ ihf ihg =>
      intro v hv
      simp only [Formula.occurrences, Formula.binders, List.mem_append] at hv ⊢
      rcases hv with hv | hv
      · have := ihf hp v hv
        tauto
      · have := ihg hp v hv
        tauto
  | all _ _ ih =>
      intro v hv
      have := ih hp.below v hv
      simp only [Formula.occurrences, Formula.binders, List.mem_append] at this ⊢
      tauto
  | @ex us p vs f terms copies g r mid r' hterms hcopies hjoin =>
      refine disjunction_preserves (P := fun g => ∀ v ∈ g.occurrences,
        v ∈ us ∨ v ∈ (Formula.ex vs f).occurrences ∨ v ∈ (Formula.ex vs f).binders)
        (fun _ _ hf hg v hv => (List.mem_append.1 hv).elim (hf v) (hg v))
        (fun g hg v hv => ?_) hjoin
      obtain ⟨choice, hchoice, _, _, _, ih⟩ := hcopies.exists_of_mem hg
      have := ih (hp.copy hterms hchoice) v hv
      simp only [Formula.occurrences, Formula.binders, List.mem_append]
      tauto

/-- A name that is free after the walk was free and not replaced before, or is that of a universal
variable. -/
theorem free_names (h : Skolemizes cfg us p f r g r') (hp : p.Over us) (hf : f.RangesInhabited) :
    ∀ name ∈ g.freeNames, name ∈ names us ∨ name ∈ f.freeNames ∧ name ∉ p.keys := by
  induction h using Skolemizes.induction with
  | atom | not =>
      intro name hname
      obtain ⟨v, hv, rfl⟩ := List.mem_map.1 hname
      rcases Pending.mem_vars_apply hp hv with hv | ⟨hv, hnot⟩
      · exact .inl (List.mem_map_of_mem hv)
      · exact .inr ⟨List.mem_map_of_mem hv, hnot⟩
  | binary _ _ _ _ ihf ihg =>
      intro name hname
      obtain ⟨hfirst, hsecond⟩ := List.forall_mem_append.1 hf
      rw [Formula.mem_free_names_binary] at hname ⊢
      rcases hname with hname | hname
      · have := ihf hp hfirst name hname
        tauto
      · have := ihg hp hsecond name hname
        tauto
  | all _ _ ih =>
      intro name hname
      rw [Formula.mem_free_names_quant] at hname ⊢
      have := ih hp.below (List.forall_mem_append.1 hf).2 name hname.1
      rw [Variable.mem_names_append, Pending.mem_keys_below] at this
      tauto
  | @ex us p vs f terms copies g r mid r' hterms hcopies hjoin =>
      obtain ⟨hvs, hf⟩ := List.forall_mem_append.1 hf
      refine disjunction_preserves (P := fun g => ∀ name ∈ g.freeNames,
        name ∈ names us ∨ name ∈ (Formula.ex vs f).freeNames ∧ name ∉ p.keys)
        (fun _ _ hf hg name hname => ?_) (fun g hg name hname => ?_) hjoin
      · exact (Formula.mem_free_names_binary.1 hname).elim (hf name) (hg name)
      · obtain ⟨choice, hchoice, _, _, _, ih⟩ := hcopies.exists_of_mem hg
        -- the copy replaces all variables of the existential, so none of them stays free
        have hkeys := (copy_replaces hvs hterms hchoice).keys name
        have := ih (hp.copy hterms hchoice) hf name hname
        rw [Formula.mem_free_names_quant]
        rw [Pending.keys, List.map_append, List.mem_append, Pending.mem_keys_below, hkeys] at this
        tauto

end Skolemizes

end Clausal
