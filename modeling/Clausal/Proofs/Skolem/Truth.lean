import Clausal.Proofs.Skolem.Result

/-!
# Skolemization keeps the meaning

Where bound and pending variables keep apart (`Separate`), a structure that satisfies the Skolemized
formula satisfies the formula (`Skolemizes.sound`), and one that satisfies the formula has a variant
that satisfies the Skolemized one (`Skolemizes.complete`). The variant gives each Skolem symbol the
witnesses of its variable as a function of the values of the enclosing universal variables.
-/

namespace Clausal

open Variable (names)

universe u

variable {U : Type u} {M N : Interpretation U} {s t : Assignment U}

namespace Interpretation

/-- A disjunction is true when one of its parts is. -/
theorem holds_disjunction {fs : List Formula} {g : Formula} (h : Formula.disjunction fs = some g) :
    M.Holds s g ↔ ∃ f ∈ fs, M.Holds s f := by
  cases fs with
  | nil => cases h
  | cons f fs =>
      cases h
      induction fs generalizing f with
      | nil => simp
      | cons f' fs ih =>
          rw [List.foldl_cons, ih]
          simp [Holds, Connective.Combines, or_assoc]

end Interpretation

/-- The universal variables and the binders have distinct names, none of them that of a pending
variable, and the pending terms hold universal variables only. -/
structure Separate (us : List Variable) (p : Pending) (f : Formula) : Prop where
  nodup : (names (us ++ f.binders)).Nodup
  termsOver : p.Over us
  unbound : ∀ name ∈ names (us ++ f.binders), name ∉ p.keys

namespace Separate

variable {us vs : List Variable} {p q : Pending} {f g : Formula} {c : Connective}

theorem left (h : Separate us p (.binary c f g)) : Separate us p f := by
  have hsub : List.Sublist (names (us ++ f.binders)) (names (us ++ (f.binders ++ g.binders))) :=
    ((List.sublist_append_left ..).append_left us).map _
  exact ⟨h.nodup.sublist hsub, h.termsOver, fun name hname => h.unbound name (hsub.subset hname)⟩

theorem right (h : Separate us p (.binary c f g)) : Separate us p g := by
  have hsub : List.Sublist (names (us ++ g.binders)) (names (us ++ (f.binders ++ g.binders))) :=
    ((List.sublist_append_right ..).append_left us).map _
  exact ⟨h.nodup.sublist hsub, h.termsOver, fun name hname => h.unbound name (hsub.subset hname)⟩

variable {quant : Quantifier}

theorem bound_not_key (h : Separate us p (.quant quant vs f)) {name : String}
    (hname : name ∈ names vs) : name ∉ p.keys := by
  refine h.unbound _ (Variable.mem_names_append.2 (.inr ?_))
  exact Variable.mem_names_append.2 (.inl hname)

/-- The pending replacements all reach below a quantifier. -/
theorem below_eq (h : Separate us p (.quant quant vs f)) : p.below vs = p :=
  Pending.below_eq fun _ hv => h.bound_not_key (List.mem_map_of_mem hv)

theorem below (h : Separate us p (.all vs f)) : Separate (us ++ vs) (p.below vs) f := by
  obtain ⟨hnodup, hover, hunbound⟩ := h
  rw [Formula.binders, ← List.append_assoc] at hnodup hunbound
  refine ⟨hnodup, hover.below, fun name hname hkey => hunbound name hname ?_⟩
  exact (Pending.mem_keys_below.1 hkey).1

theorem nodup_bound (h : Separate us p (.quant quant vs f)) : (names vs).Nodup :=
  h.nodup.sublist (((List.sublist_append_left ..).trans (List.sublist_append_right ..)).map _)

/-- The names of the quantifier are neither those of universal variables nor bound below. -/
theorem bound_not_mem (h : Separate us p (.quant quant vs f)) {name : String}
    (hname : name ∈ names vs) : name ∉ names us ∧ name ∉ names f.binders := by
  have hnodup := h.nodup
  simp only [Formula.binders, names, List.map_append, List.nodup_append, List.mem_append]
    at hnodup hname
  obtain ⟨-, ⟨-, -, hbelow⟩, habove⟩ := hnodup
  exact ⟨fun hmem => habove _ hmem _ (.inl hname) rfl, fun hmem => hbelow _ hname _ hmem rfl⟩

theorem copy (h : Separate us p (.ex vs f)) (hq : Replaces us vs q) : Separate us (p ++ q) f := by
  have hsub : List.Sublist (names (us ++ f.binders)) (names (us ++ (vs ++ f.binders))) :=
    ((List.sublist_append_right ..).append_left us).map _
  refine ⟨h.nodup.sublist hsub, List.forall_mem_append.2 ⟨h.termsOver, hq.termsOver⟩, ?_⟩
  intro name hname hkey
  rw [Pending.keys, List.map_append, List.mem_append, hq.keys] at hkey
  rcases hkey with hkey | hkey
  · exact h.unbound name (hsub.subset hname) hkey
  · exact (Variable.mem_names_append.1 hname).elim (h.bound_not_mem hkey).1
      (h.bound_not_mem hkey).2

/-! ## The values that a copy gives -/

theorem universal_not_key (h : Separate us p f) : ∀ v ∈ us, v.name ∉ p.keys := fun _ hv =>
  h.unbound _ (Variable.mem_names_append.2 (.inl (List.mem_map_of_mem hv)))

/-- A copy gives other values to the variables of its existential only. -/
theorem assign_copy_of_not_mem (h : Separate us p (.ex vs f)) (hq : Replaces us vs q)
    {name : String} (hname : name ∉ names vs) :
    Pending.assign M s (p ++ q) name = p.assign M s name := by
  rw [Pending.assign_append]
  refine Pending.assign_congr h.termsOver (fun v hv => ?_) (fun _ => ?_) h.universal_not_key
  · refine Pending.assign_of_not_mem fun hkey => ?_
    exact (h.bound_not_mem ((hq.keys _).1 hkey)).1 (List.mem_map_of_mem hv)
  · exact Pending.assign_of_not_mem fun hkey => hname ((hq.keys _).1 hkey)

/-- A copy gives the variables of its existential the values of what takes their place. -/
theorem assign_copy_of_mem (h : Separate us p (.ex vs f)) (hq : Replaces us vs q)
    {v : Variable} (hv : v ∈ vs) :
    ∃ b, (v, b) ∈ q ∧ Pending.assign M s (p ++ q) v.name = M.value s b := by
  have hname := List.mem_map_of_mem (f := fun v : Variable => v.name) hv
  obtain ⟨xb, hxb, hsame, hvalue⟩ := Pending.assign_of_mem_keys (M := M) (s := s) hq.termsOver
    (fun w hw hkey => (h.bound_not_mem ((hq.keys _).1 hkey)).1 (List.mem_map_of_mem hw))
    ((hq.keys _).2 hname)
  cases Variable.eq_of_name_eq h.nodup_bound (hq.member xb hxb) hv hsame
  refine ⟨xb.2, hxb, ?_⟩
  rw [Pending.assign_append, Pending.assign_of_not_mem (h.bound_not_key hname), hvalue]

/-- A copy chooses values for the existential. -/
theorem rebinds_copy (h : Separate us p (.ex vs f)) (hq : Replaces us vs q) :
    M.Rebinds vs (p.assign M s) (Pending.assign M s (p ++ q)) := by
  refine ⟨fun name hname => h.assign_copy_of_not_mem hq hname, fun v hv => ?_⟩
  obtain ⟨b, hb, hvalue⟩ := h.assign_copy_of_mem (M := M) (s := s) hq hv
  unfold Interpretation.InRange
  cases hdomain : v.domain with
  | none => trivial
  | some cs =>
      obtain ⟨c, hc, rfl⟩ := hq.inDomain _ hb cs hdomain
      exact ⟨c, hc, hvalue.symm⟩

/-- The copy whose terms have the values chosen for the existential gives these values. -/
theorem assign_copy_eq (h : Separate us p (.ex vs f)) (hq : Replaces us vs q)
    (ht : M.Rebinds vs (p.assign M s) t) (hvalues : ∀ xb ∈ q, M.value s xb.2 = t xb.1.name) :
    Pending.assign M s (p ++ q) = t := by
  funext name
  by_cases hname : name ∈ names vs
  · obtain ⟨v, hv, rfl⟩ := List.mem_map.1 hname
    obtain ⟨b, hb, hvalue⟩ := h.assign_copy_of_mem (M := M) (s := s) hq hv
    exact hvalue.trans (hvalues _ hb)
  · rw [h.assign_copy_of_not_mem hq hname, ht.1 name hname]

/-- Values chosen for a universal quantifier are not disturbed by what is pending. -/
theorem assign_rebinds (h : Separate us p (.all vs f)) (ht : M.Rebinds vs s t) :
    M.Rebinds vs (p.assign M s) (p.assign M t) := by
  refine ⟨fun name hname => ?_, fun v hv => ?_⟩
  · refine Pending.assign_congr h.termsOver (fun v hv => ?_) (fun _ => ht.1 name hname)
      h.universal_not_key
    exact ht.1 _ fun hmem => (h.bound_not_mem hmem).1 (List.mem_map_of_mem hv)
  · rw [Pending.assign_of_not_mem (h.bound_not_key (List.mem_map_of_mem hv))]
    exact ht.2 v hv

/-- Values chosen for a universal quantifier can be chosen before what is pending is put in. -/
theorem exists_rebinds (h : Separate us p (.all vs f)) (ht : M.Rebinds vs (p.assign M s) t) :
    ∃ t', M.Rebinds vs s t' ∧ p.assign M t' = t := by
  let t' : Assignment U := fun name => if name ∈ names vs then t name else s name
  have ht' : M.Rebinds vs s t' := by
    refine ⟨fun name hname => if_neg hname, fun v hv => ?_⟩
    rw [show t' v.name = t v.name from if_pos (List.mem_map_of_mem hv)]
    exact ht.2 v hv
  refine ⟨t', ht', funext fun name => ?_⟩
  by_cases hname : name ∈ names vs
  · rw [Pending.assign_of_not_mem (h.bound_not_key hname)]
    exact if_pos hname
  · rw [(h.assign_rebinds ht').1 name hname, ht.1 name hname]

/-- Some copy gives the values chosen for the existential when the Skolem terms have them. -/
theorem exists_copy {terms : Pending} {r mid : Registry} (h : Separate us p (.ex vs f))
    (hvs : ∀ v ∈ vs, v.domain ≠ some [])
    (hterms : MintsTerms us (vs.filter fun v => !v.isClosedWorld) r terms mid)
    (ht : M.Rebinds vs (p.assign M s) t) (hvalues : ∀ xb ∈ terms, M.value s xb.2 = t xb.1.name) :
    ∃ choice ∈ copiesOf vs, Pending.assign M s (p ++ (terms ++ choice)) = t := by
  obtain ⟨choice, hchoice, hconsts⟩ := exists_choice (in_domain_of_in_range ht.2)
  have hchoice : choice ∈ copiesOf vs := copies_of_eq hvs ▸ hchoice
  refine ⟨choice, hchoice, h.assign_copy_eq (copy_replaces hvs hterms hchoice) ht ?_⟩
  exact List.forall_mem_append.2 ⟨hvalues, fun xb hxb => hconsts xb hxb s⟩

/-- The values that make an existential true are a function of the values of the universal
variables. -/
theorem exists_witness (h : Separate us p (.ex vs f)) (M : Interpretation U) (s₀ : Assignment U) :
    ∃ witness : List U → Assignment U, ∀ s, (∀ name, name ∉ names us → s name = s₀ name) →
      M.Holds (p.assign M s) (.ex vs f) →
      M.Rebinds vs (p.assign M s) (witness (us.map fun v => s v.name)) ∧
        M.Holds (witness (us.map fun v => s v.name)) f := by
  have hexists : ∀ as : List U, ∃ t, M.Holds (p.assign M (assignAll s₀ us as)) (.ex vs f) →
      M.Rebinds vs (p.assign M (assignAll s₀ us as)) t ∧ M.Holds t f := by
    intro as
    by_cases hex : M.Holds (p.assign M (assignAll s₀ us as)) (.ex vs f)
    · obtain ⟨t, ht⟩ := (Interpretation.holds_quant_iff h.nodup_bound).1 hex
      exact ⟨t, fun _ => ht⟩
    · exact ⟨s₀, fun hholds => absurd hholds hex⟩
  choose witness hwitness using hexists
  refine ⟨witness, fun s hs hex => ?_⟩
  have hself : assignAll s₀ us (us.map fun v => s v.name) = s := assign_all_self hs
  have hvalues := hwitness (us.map fun v => s v.name)
  rw [hself] at hvalues
  exact hvalues hex

end Separate

/-! ## Soundness -/

/-- A structure that satisfies the Skolemized formula satisfies the formula, with the values of the
pending terms for the pending variables. -/
theorem Skolemizes.sound {cfg : Config} {us : List Variable} {p : Pending} {f g : Formula}
    {r r' : Registry} (h : Skolemizes cfg us p f r g r') (hsep : Separate us p f)
    (hf : f.RangesInhabited) (hg : M.Holds s g) : M.Holds (p.assign M s) f := by
  induction h using Skolemizes.induction generalizing s with
  | atom => exact Pending.holds_atom_apply.1 hg
  | not => exact fun ha => hg (Pending.holds_atom_apply.2 ha)
  | binary hc _ _ _ ihf ihg =>
      obtain ⟨hfirst, hsecond⟩ := List.forall_mem_append.1 hf
      rcases hc with rfl | rfl
      · exact ⟨ihf hsep.left hfirst hg.1, ihg hsep.right hsecond hg.2⟩
      · exact hg.imp (ihf hsep.left hfirst) (ihg hsep.right hsecond)
  | @all us p vs f f' r r' _ _ ih =>
      obtain ⟨-, hf⟩ := List.forall_mem_append.1 hf
      refine (Interpretation.holds_quant_iff hsep.nodup_bound).2 fun t ht => ?_
      -- the pending terms do not mention the variables bound here, so the order does not matter
      obtain ⟨t', ht', rfl⟩ := hsep.exists_rebinds ht
      have hbody := ih hsep.below hf (Interpretation.holds_of_holds_all hg ht')
      rwa [hsep.below_eq] at hbody
  | @ex us p vs f terms copies g r mid r' hterms hcopies hjoin =>
      obtain ⟨hvs, hf⟩ := List.forall_mem_append.1 hf
      obtain ⟨g, hmem, hg⟩ := (Interpretation.holds_disjunction hjoin).1 hg
      obtain ⟨choice, hchoice, _, _, _, ih⟩ := hcopies.exists_of_mem hmem
      have hq := copy_replaces hvs hterms hchoice
      rw [hsep.below_eq] at ih
      exact Interpretation.holds_ex_of_holds (hsep.rebinds_copy hq) (ih (hsep.copy hq) hf hg)

/-! ## Completeness -/

/-- Some variant gives a Skolem term any value that depends on the universal variables. -/
theorem MintsTerm.exists_variant {us : List Variable} {r r' : Registry} {b : Term}
    (h : MintsTerm us r b r') (M : Interpretation U) (W : List U → U) :
    ∃ N, M.Variant N r r' ∧ ∀ s, N.value s b = W (us.map fun v => s v.name) := by
  cases h with
  | const c hus hadds =>
      refine ⟨{ M with const := Function.update M.const c.name (W []) }, ⟨rfl, ?_, ?_⟩, ?_⟩
      · exact fun name hname => Function.update_of_ne (by simpa [hadds.consts] using hname) ..
      · exact fun _ _ _ => rfl
      · exact fun s => by simp [Interpretation.value, hus]
  | func name _ hadds =>
      let func (g : String) (as : List U) : U :=
        if g = name ∧ as.length = us.length then W as else M.func g as
      refine ⟨{ M with func := func }, ⟨rfl, fun _ _ => rfl, fun g as hg => ?_⟩, fun s => ?_⟩
      · refine if_neg fun hsame => hg ?_
        simp [hadds.skolems, hsame.1, hsame.2]
      · simp [Interpretation.value, func, Function.comp_def]

/-- Some variant gives each Skolem term the value wanted for its variable. -/
theorem MintsTerms.exists_variant {us vs : List Variable} {r r' : Registry} {p : Pending}
    (h : MintsTerms us vs r p r') (hus : ∀ v ∈ us, v.symbols ⊆ r.symbols) (M : Interpretation U)
    (W : Variable → List U → U) :
    ∃ N, M.Variant N r r' ∧
      ∀ xb ∈ p, ∀ s, N.value s xb.2 = W xb.1 (us.map fun v => s v.name) := by
  induction h generalizing M with
  | nil r => exact ⟨M, .refl M r r, fun _ h => absurd h List.not_mem_nil⟩
  | @cons v vs xb p r mid r' hstep hrest ih =>
      obtain ⟨L, hL, hvalue⟩ := hstep.2.exists_variant M (W v)
      have hgrows := hstep.2.grows
      obtain ⟨N, hN, hvalues⟩ := ih
        (fun v hv => List.Subset.trans (hus v hv) hgrows.symbols_subset) L
      have hgrows' := MintsTerms.grows hrest
      refine ⟨N, hL.trans hgrows hgrows' hN, List.forall_mem_cons.2 ⟨fun s => ?_, hvalues⟩⟩
      have hregistered := hstep.2.symbols_subset
        (fun v hv => List.Subset.trans (hus v hv) hgrows.symbols_subset) hgrows.added_symbols_subset
      have hagrees := hN.agrees_on hgrows' hregistered
      rw [hstep.1, ← hvalue s]
      exact Interpretation.value_congr hagrees.symm fun _ _ => rfl

/-- A variant changes neither the values of registered pending terms nor the truth of a registered
formula. -/
theorem WalkWithin.holds_iff {us : List Variable} {p : Pending} {f : Formula} {r r' : Registry}
    (h : WalkRegistered us p f r) (hgrows : r.Grows r') (hN : M.Variant N r r') :
    M.Holds (p.assign M s) f ↔ N.Holds (p.assign N s) f := by
  rw [Pending.assign_agrees (hN.agrees_on hgrows h.terms)]
  exact Interpretation.holds_congr (hN.agrees_on hgrows h.formula) fun _ _ => rfl

/-- When each copy of a body has a variant, one variant serves all of them. -/
theorem exists_variant_of_copies {cfg : Config} {us : List Variable} {f : Formula}
    {pending : Pending → Pending} {P : Assignment U → Prop} {xs : List Pending}
    {copies : List Formula} {r r' : Registry}
    (h : Threads (fun choice r g r' => Skolemizes cfg us (pending choice) f r g r' ∧
      (WalkRegistered us (pending choice) f r → ∀ M : Interpretation U, ∃ N, M.Variant N r r' ∧
        ∀ s, P s → M.Holds ((pending choice).assign M s) f → N.Holds s g)) xs r copies r')
    (hreg : ∀ choice ∈ xs, WalkRegistered us (pending choice) f r) (M : Interpretation U) :
    r.Grows r' ∧ ∃ N, M.Variant N r r' ∧ ∀ s, P s →
      List.Forall₂ (fun choice g => M.Holds ((pending choice).assign M s) f → N.Holds s g)
        xs copies := by
  obtain ⟨hgrows, N, hN, hall⟩ := Interpretation.exists_variant_of_threads (I := Subtype P)
    (H := fun choice r => WalkRegistered us (pending choice) f r)
    (K := fun g r => g.Registered r)
    (B := fun M choice s => M.Holds ((pending choice).assign M s.1) f)
    (A := fun N g s => N.Holds s.1 g)
    (fun ⟨hcopy, hvariant⟩ hH => ⟨hcopy.grows, hcopy.registered hH, fun M =>
      have ⟨N, hN, hholds⟩ := hvariant hH M
      ⟨N, hN, fun s => hholds s.1 s.2⟩⟩)
    (fun hgrows hH => hH.mono hgrows.symbols_subset)
    (fun hgrows hH hN => (hH.holds_iff hgrows hN).1)
    (fun hgrows hg hN => (Interpretation.holds_congr (hN.agrees_on hgrows hg) fun _ _ => rfl).1)
    h hreg M
  exact ⟨hgrows, N, hN, fun s hs => hall ⟨s, hs⟩⟩

/-- A structure that satisfies the formula has a variant that satisfies the Skolemized formula.
One variant serves all assignments that differ in the values of the universal variables. -/
theorem Skolemizes.complete {cfg : Config} {us : List Variable} {p : Pending} {f g : Formula}
    {r r' : Registry} (h : Skolemizes cfg us p f r g r') (hsep : Separate us p f)
    (hreg : WalkRegistered us p f r) (hf : f.RangesInhabited) (M : Interpretation U)
    (s₀ : Assignment U) :
    ∃ N, M.Variant N r r' ∧ ∀ s, (∀ name, name ∉ names us → s name = s₀ name) →
      M.Holds (p.assign M s) f → N.Holds s g := by
  induction h using Skolemizes.induction generalizing M with
  | atom => exact ⟨M, .refl .., fun s _ => Pending.holds_atom_apply.2⟩
  | not => exact ⟨M, .refl .., fun s _ => mt Pending.holds_atom_apply.1⟩
  | @binary us p c f f' g g' r mid r' hc hfirst hsecond _ ihf ihg =>
      obtain ⟨hf, hg⟩ := List.forall_mem_append.1 hf
      -- the second side starts from the variant of the first one, whose symbols are old to it
      obtain ⟨L, hL, hleft⟩ := ihf hsep.left hreg.left hf M
      obtain ⟨N, hN, hright⟩ := ihg hsep.right (hreg.right.mono hfirst.grows.symbols_subset) hg L
      refine ⟨N, hL.trans hfirst.grows hsecond.grows hN, fun s hs hholds => ?_⟩
      have hf' : M.Holds (p.assign M s) f → N.Holds s f' := fun hholds => by
        have hagrees := hN.agrees_on hsecond.grows (hfirst.registered hreg.left)
        exact (Interpretation.holds_congr hagrees fun _ _ => rfl).1 (hleft s hs hholds)
      have hg' : M.Holds (p.assign M s) g → N.Holds s g' := fun hholds =>
        hright s hs ((hreg.right.holds_iff hfirst.grows hL).1 hholds)
      rcases hc with rfl | rfl
      · exact hholds.imp hf' hg'
      · exact hholds.imp hf' hg'
  | @all us p vs f f' r r' hbody _ ih =>
      obtain ⟨-, hf⟩ := List.forall_mem_append.1 hf
      obtain ⟨N, hN, hholds⟩ := ih hsep.below hreg.below hf M
      have hvs := (Formula.registered_quant.1 hreg.formula).1
      refine ⟨N, hN, fun s hs hall => ?_⟩
      refine (Interpretation.holds_quant_iff hsep.nodup_bound).2 fun t ht => hholds t ?_ ?_
      · intro name hname
        rw [Variable.mem_names_append, not_or] at hname
        rw [ht.1 name hname.2, hs name hname.1]
      · have ht := ht.agrees fun v hv => (hN.agrees_on hbody.grows (hvs v hv)).symm
        rw [hsep.below_eq]
        exact Interpretation.holds_of_holds_all hall (hsep.assign_rebinds ht)
  | @ex us p vs f terms copies g r mid r' hterms hcopies hjoin =>
      obtain ⟨hinhabited, hf⟩ := List.forall_mem_append.1 hf
      obtain ⟨hvs, hbody⟩ := Formula.registered_quant.1 hreg.formula
      -- in `L` the Skolem terms have the values of the witnesses, and in `N` all copies are served
      obtain ⟨witness, hwitness⟩ := hsep.exists_witness M s₀
      obtain ⟨L, hL, hvalues⟩ :=
        hterms.exists_variant hreg.universals M fun v as => witness as v.name
      obtain ⟨hgrows, N, hN, hcopied⟩ := exists_variant_of_copies
        (hcopies.mono fun choice hchoice _ _ _ ⟨hcopy, ih⟩ => ⟨hcopy, fun hreg =>
          ih (hsep.below_eq.symm ▸ hsep.copy (copy_replaces hinhabited hterms hchoice)) hreg hf⟩)
        (fun choice hchoice => hreg.copy hterms hchoice) L
      refine ⟨N, hL.trans hterms.grows hgrows hN, fun s hs hex => ?_⟩
      obtain ⟨ht, hholds⟩ := hwitness s hs hex
      rw [Pending.assign_agrees (hL.agrees_on hterms.grows hreg.terms)] at ht
      have ht := ht.agrees fun v hv => hL.agrees_on hterms.grows (hvs v hv)
      obtain ⟨choice, hchoice, heq⟩ :=
        hsep.exists_copy hinhabited hterms ht fun xb hxb => hvalues xb hxb s
      obtain ⟨g, hg, hcopy⟩ := exists_right_of_forall₂ (hcopied s hs) hchoice
      refine (Interpretation.holds_disjunction hjoin).2 ⟨g, hg, hcopy ?_⟩
      rw [hsep.below_eq, heq]
      exact (Interpretation.holds_congr (hL.agrees_on hterms.grows hbody) fun _ _ => rfl).1 hholds

/-! ## Whole formulas -/

section Whole

variable {cfg : Config} {f g : Formula} {r : Registry}

theorem skolemizes_of_outcome (h : (f.skolemize cfg).outcome r = .ok g) :
    Skolemizes cfg [] [] f r g ((f.skolemize cfg).after r) :=
  ⟨1, Attempt.yields_atomically.1 (Attempt.yields_of_outcome h)⟩

/-- Nothing is pending above a formula. -/
theorem Separate.top (h : (names f.binders).Nodup) : Separate [] [] f :=
  ⟨h, fun _ h => absurd h List.not_mem_nil, fun _ _ => List.not_mem_nil⟩

/-- Skolemization, before universal quantifiers are dropped, is correct in both directions: the
result implies the formula, and the formula holds in a variant of each of its models, changed on
minted symbols only, where the result does. The result is in negation normal form, holds no
existential, and has no new free variable. -/
theorem skolemize_correct {U : Type u} (hapart : f.IsApart) (hreg : f.Registered r)
    (hinhabited : f.RangesInhabited) (h : (f.skolemize cfg).outcome r = .ok g) :
    (∀ (M : Interpretation U) (s : Assignment U), M.Holds s g → M.Holds s f) ∧
    (∀ (M : Interpretation U) (s : Assignment U), M.Holds s f →
      ∃ N, M.Variant N r ((f.skolemize cfg).after r) ∧ N.Holds s g) ∧
    g.isNnf = true ∧ g.containsExistential = false ∧
    ∀ v ∈ g.freeVariables, v.isAmong f.freeVariables = true := by
  have hwalk := skolemizes_of_outcome h
  refine ⟨fun M s => ?_, fun M s hf => ?_, hwalk.shape.1, hwalk.shape.2, fun v hv => ?_⟩
  · exact hwalk.sound (.top hapart.nodup) hinhabited
  · obtain ⟨N, hN, hholds⟩ := hwalk.complete (.top hapart.nodup) (.top hreg) hinhabited M s
    exact ⟨N, hN, hholds s (fun _ _ => rfl) hf⟩
  · have hfree : v.name ∈ g.freeNames := Formula.mem_free_names_iff.2 ⟨v, hv, rfl⟩
    rcases hwalk.free_names (fun _ h => absurd h List.not_mem_nil) hinhabited _ hfree with
      hfree | ⟨hfree, -⟩
    · cases hfree
    · obtain ⟨w, hw, hname⟩ := Formula.mem_free_names_iff.1 hfree
      exact Variable.is_among_iff.2 (List.mem_map.2 ⟨w, hw, hname⟩)

end Whole

/-! ## An example with both kinds of variables -/

namespace Sample

def a : Constant := ⟨"A"⟩

def b : Constant := ⟨"B"⟩

/-- A closed-world variable over two constants. -/
def p : Variable := { name := "p", domain := some [a, b] }

def x : Variable := { name := "x" }

def y : Variable := { name := "y" }

def registry : Registry := { consts := [a, b], vars := [p, x, y] }

/-- An atom over variables or constants. -/
def holding (name : String) (terms : List Term) : Formula := .atom ⟨⟨name, terms.length⟩, terms⟩

/-- Every `x` is related to some `y` by some `p`. -/
def mixed : Formula := .all [x] (.ex [y, p] (holding "R" [.var x, .var y, .var p]))

end Sample

open Sample in
/-- One variable becomes a Skolem term and the other is expanded, below a universal quantifier. -/
theorem skolemize_correct_mixed :
    mixed.IsApart ∧ mixed.Registered registry ∧ mixed.RangesInhabited ∧
    ∃ g, (mixed.skolemize {}).outcome registry = .ok g ∧
      (∀ (M : Interpretation Nat) s, M.Holds s g → M.Holds s mixed) ∧
      (∀ (M : Interpretation Nat) s, M.Holds s mixed →
        ∃ N, M.Variant N registry ((mixed.skolemize {}).after registry) ∧ N.Holds s g) ∧
      g.isNnf = true ∧ g.containsExistential = false ∧
      ∀ v ∈ g.freeVariables, v.isAmong mixed.freeVariables = true := by
  have hapart : mixed.IsApart := by decide
  have hreg : mixed.Registered registry := by decide
  have hinhabited : mixed.RangesInhabited := by decide
  exact ⟨hapart, hreg, hinhabited, _, rfl, skolemize_correct hapart hreg hinhabited rfl⟩

end Clausal
