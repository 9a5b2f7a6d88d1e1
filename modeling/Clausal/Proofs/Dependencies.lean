import Clausal.Proofs.Skolem.Mintings
import Clausal.Proofs.Skolem.Objections

/-!
# What Skolem terms depend on

A Skolem function is minted with the universal variables that enclose its existential as arguments.
They are never those of an existential, so what is put in place later does not reach into Skolem
terms, and minted names are new and distinct. So wherever a minted function stands in the normal
form it has the arguments it was minted with (`to_cnf_dependencies`).
-/

namespace Clausal

open Variable (names)

variable {cfg : Config} {n : Nat} {r mid r' : Registry}

/-! ## Subterms -/

namespace Term

mutual

/-- The subterms of a term, itself first. -/
def subterms : Term → List Term
  | const c => [const c]
  | var v => [var v]
  | skolem name args => skolem name args :: subtermsAll args

/-- The subterms of several terms. -/
def subtermsAll : List Term → List Term
  | [] => []
  | t :: ts => t.subterms ++ subtermsAll ts

end

@[simp] theorem subterms_all_eq {ts : List Term} : subtermsAll ts = ts.flatMap subterms := by
  induction ts with
  | nil => rfl
  | cons t ts ih => simp [subtermsAll, ih]

variable {h : Variable → Term} {t : Term} {name : String} {args : List Term}

/-- A Skolem function of a term with other terms put in place of variables was in the term before,
or its application stands in one of those put in place. -/
theorem skolem_mem_subterms_bind (hmem : skolem name args ∈ (t.bind h).subterms) :
    .skolem name ∈ t.symbols ∨ ∃ v ∈ t.vars, skolem name args ∈ (h v).subterms := by
  induction t using Term.induction with
  | hconst => simp [bind, subterms] at hmem
  | hvar v => exact .inr ⟨v, List.mem_singleton.2 rfl, hmem⟩
  | hskolem f ts ih =>
      simp only [bind, bind_all_eq, subterms, subterms_all_eq, List.flatMap_map, List.mem_cons,
        List.mem_flatMap] at hmem
      simp only [symbols, symbols_all_eq, vars, vars_all_eq, List.mem_cons, List.mem_flatMap]
      rcases hmem with heq | ⟨t, ht, hmem⟩
      · exact .inl (.inl (congrArg Symbol.skolem (skolem.inj heq).1))
      · rcases ih t ht hmem with hold | ⟨v, hv, hnew⟩
        · exact .inl (.inr ⟨t, ht, hold⟩)
        · exact .inr ⟨v, ⟨t, ht, hv⟩, hnew⟩

end Term

/-- The subterms of all terms in a formula. -/
def Formula.subterms (f : Formula) : List Term :=
  f.atoms.flatMap fun a => a.terms.flatMap Term.subterms

/-- The only Skolem function in a Skolem term is the one minted for it. -/
theorem Minting.skolem_mem_subterms {m : Minting} {name : String} {args : List Term}
    (h : .skolem name args ∈ m.term.subterms) :
    name = m.name ∧ m.site.universals ≠ [] ∧ args = m.site.universals.map .var := by
  unfold term at h
  split at h
  · simp [Term.subterms] at h
  · next hne =>
      obtain ⟨hname, hargs⟩ : name = m.name ∧ args = m.site.universals.map .var := by
        simpa [Term.subterms, List.flatMap_map] using h
      exact ⟨hname, mt List.isEmpty_iff.2 hne, hargs⟩

/-! ## Whole conversions -/

/-- The symbols `ms` are those that a conversion of `g` into `c` adds, so many as there are copies
of open variables that existentials bind. Constants are added where no universal variable stands
above, and functions of those that do elsewhere; a function stands in `c` with these arguments only.
In `c` the variables of existentials are replaced by the terms minted for them and by constants of
their domains, and all others are left. -/
structure Dependencies (r r' : Registry) (g c : Formula) (ms : List Minting) : Prop where
  consts : r.addedConsts r' = ms.filterMap Minting.constant?
  skolems : r.addedSkolems r' = ms.filterMap Minting.function?
  count : (r.addedConsts r').length + (r.addedSkolems r').length = totalCopies (g.openings [] 1)
  openings : ∀ m ∈ ms, m.toOpening ∈ g.openings [] 1
  distinct : ∀ m ∈ ms, (names m.site.universals).Nodup
  arity : ∀ m ∈ ms, m.site.universals ≠ [] →
    r'.skolemArity? m.name = some m.site.universals.length
  arguments : ∀ m ∈ ms, ∀ args, .skolem m.name args ∈ c.subterms →
    m.site.universals ≠ [] ∧ args = m.site.universals.map .var
  replaced : ∀ a ∈ c.atoms, ∃ b ∈ g.atoms, ∃ h, a = b.mapTerms (Term.bind h) ∧
    ∀ w ∈ b.vars, w.name ∉ names g.existentials ∧ h w = .var w ∨
      Instantiates g.existentials ms w (h w)

section Conversion

variable {f g k c : Formula} {ms : List Minting} {a : Atom}

/-- What a formula lists it lists for its atoms too. -/
theorem Formula.subset_of_mem_atoms {α : Type} {m : Formula → List α}
    (hnot : ∀ f, m f ⊆ m (not f)) (hbinary : ∀ c f g, m f ++ m g ⊆ m (binary c f g))
    (hquant : ∀ q vs f, m f ⊆ m (quant q vs f)) (h : a ∈ f.atoms) : m (atom a) ⊆ m f := by
  induction f with
  | atom => exact List.mem_singleton.1 h ▸ List.Subset.refl _
  | not f ih => exact List.Subset.trans (ih h) (hnot f)
  | binary c f g ihf ihg =>
      obtain ⟨hf, hg⟩ := List.append_subset.1 (hbinary c f g)
      exact (List.mem_append.1 h).elim (fun h => List.Subset.trans (ihf h) hf)
        fun h => List.Subset.trans (ihg h) hg
  | quant q vs f ih => exact List.Subset.trans (ih h) (hquant q vs f)

theorem Formula.vars_subset_of_mem_atoms (h : a ∈ f.atoms) : a.vars ⊆ f.occurrences :=
  subset_of_mem_atoms (m := occurrences) (fun _ => List.Subset.refl _)
    (fun _ _ _ => List.Subset.refl _) (fun _ _ _ => List.Subset.refl _) h

theorem Formula.symbols_subset_of_mem_atoms (h : a ∈ f.atoms) : a.symbols ⊆ f.symbols :=
  subset_of_mem_atoms (m := symbols) (fun _ => List.Subset.refl _)
    (fun _ _ _ => List.Subset.refl _) (fun _ _ _ => List.subset_append_right ..) h

/-- Where binders do not interfere, the universal variables above a node are distinct, and no
existential binds them. -/
theorem Formula.IsApart.universals (h : g.IsApart) {s : Site} (hs : s ∈ g.sites [] n) :
    (names s.universals).Nodup ∧ ∀ v ∈ s.universals, v.name ∉ names g.existentials := by
  obtain ⟨vs, heq, hsub, hmem⟩ := Formula.universals_of_mem_sites hs
  rw [List.nil_append] at heq
  subst heq
  exact ⟨h.nodup.sublist (hsub.map _), fun v hv hname =>
    Formula.not_universal_of_existential h.nodup hname (List.mem_map_of_mem (hmem hv))⟩

/-- Skolem terms hold no variable of an existential, so all replacements are made at once. -/
theorem Fills.exists_bind (h : Fills [] g ms k) (hapart : g.IsApart)
    (hms : ∀ m ∈ ms, m.toOpening ∈ g.openings [] n) (ha : a ∈ k.atoms) :
    ∃ b ∈ g.atoms, ∃ q : Pending, a = b.mapTerms (Term.bind q.replacement) ∧
      ∀ xb ∈ q, Instantiates g.existentials ms xb.1 xb.2 := by
  obtain ⟨b, hb, q, rfl, hq⟩ := h a ha
  have hq : ∀ xb ∈ q, Instantiates g.existentials ms xb.1 xb.2 := fun xb hxb =>
    (hq xb hxb).resolve_left List.not_mem_nil
  have hover : q.Over (ms.flatMap fun m => m.site.universals) := fun xb hxb _ hv =>
    (hq xb hxb).vars_subset hv
  refine ⟨b, hb, q, Pending.apply_eq hover fun v hv hkey => ?_, hq⟩
  obtain ⟨m, hm, hv⟩ := List.mem_flatMap.1 hv
  obtain ⟨xb, hxb, hname⟩ := List.mem_map.1 hkey
  exact (hapart.universals (Formula.site_of_mem_openings (hms m hm))).2 v hv
    (hname ▸ List.mem_map_of_mem (hq xb hxb).mem)

namespace Stages

/-- In the normal form the variables of existentials are replaced, and no others. -/
theorem replaced (h : Stages cfg f r g mid k c r') (hreg : f.Registered r)
    (hf : f.RangesInhabited) (hms : ∀ m ∈ ms, m.toOpening ∈ g.openings [] 1)
    (hfill : Fills [] g ms k) (ha : a ∈ c.atoms) :
    ∃ b ∈ g.atoms, ∃ h, a = b.mapTerms (Term.bind h) ∧
      ∀ w ∈ b.vars, w.name ∉ names g.existentials ∧ h w = .var w ∨
        Instantiates g.existentials ms w (h w) := by
  obtain ⟨hrenames, -, hapart, -⟩ := h.apart hreg
  obtain ⟨b, hb, q, heq, hq⟩ := hfill.exists_bind hapart hms (h.mem_atoms.1 ha)
  refine ⟨b, hb, q.replacement, heq, fun w hw => ?_⟩
  by_cases hkey : w.name ∈ q.keys
  · obtain ⟨xb, hxb, hname, hterm⟩ := Pending.exists_of_mem_keys hkey
    have hx := hq xb hxb
    rw [hrenames.eq_of_occurs hapart (Formula.existentials_subset hx.mem)
      (Formula.vars_subset_of_mem_atoms hb hw) hname] at hx
    exact .inr (hterm ▸ hx)
  · have hkept := Pending.replacement_of_not_mem hkey
    have hw : w ∈ a.vars := by
      rw [heq, Atom.vars_map_bind]
      exact List.mem_flatMap.2 ⟨w, hw, hkept ▸ List.mem_singleton.2 rfl⟩
    exact .inl ⟨h.not_existential hreg hf (Formula.vars_subset_of_mem_atoms ha hw), hkept⟩

/-- A minted function has no arguments but those that it was minted with. -/
theorem arguments (h : Stages cfg f r g mid k c r') (hreg : f.Registered r)
    (hf : f.RangesInhabited) (hms : Mints (g.openings [] 1) mid ms r') (hfill : Fills [] g ms k)
    {m : Minting} (hm : m ∈ ms) {args : List Term} (hmem : .skolem m.name args ∈ c.subterms) :
    m.site.universals ≠ [] ∧ args = m.site.universals.map .var := by
  obtain ⟨a, ha, hmem⟩ := List.mem_flatMap.1 hmem
  obtain ⟨b, hb, h', rfl, hplaces⟩ := h.replaced hreg hf hms.openings hfill ha
  obtain ⟨_, hterm, hmem⟩ := List.mem_flatMap.1 hmem
  obtain ⟨t, ht, rfl⟩ := List.mem_map.1 hterm
  rcases Term.skolem_mem_subterms_bind hmem with hold | ⟨w, hw, hnew⟩
  · -- what the formula mentions was registered before, and what is minted has a new name
    have hg : .skolem m.name ∈ g.symbols :=
      Formula.symbols_subset_of_mem_atoms hb (List.mem_flatMap.2 ⟨t, ht, hold⟩)
    exact absurd (hms.name_mem hm) (hms.grows.name_not_added ((h.apart hreg).2.1 hg))
  · have hw : w ∈ b.vars := List.mem_flatMap.2 ⟨t, ht, hw⟩
    rcases hplaces w hw with ⟨-, hkept⟩ | hplaced
    · rw [hkept] at hnew
      simp [Term.subterms] at hnew
    · generalize h' w = t' at hplaced hnew
      cases hplaced with
      | minted hm' =>
          obtain ⟨hname, hargs⟩ := Minting.skolem_mem_subterms hnew
          rwa [hms.eq_of_name_eq hm hm' hname]
      | chosen => simp [Term.subterms] at hnew

/-- All constants and functions are added when existentials are eliminated. -/
theorem added_eq (h : Stages cfg f r g mid k c r') :
    r.addedConsts r' = mid.addedConsts r' ∧ r.addedSkolems r' = mid.addedSkolems r' := by
  obtain ⟨hconsts, hskolems⟩ := standardize_apart_adds_variables h.standardized
  simp only [Registry.addedConsts, Registry.addedSkolems, hconsts, hskolems, and_self]

end Stages

/-- Skolem terms depend on the universal variables that enclose the existential they replace, and on
nothing else: a conversion mints a constant for each copy of an open variable without any above, and
for the other ones a function that stands with those variables as arguments wherever it occurs. -/
theorem to_cnf_dependencies (hreg : f.Registered r) (hf : f.RangesInhabited)
    (h : (f.toCnf cfg).outcome r = .ok c) :
    ∃ ms, Dependencies r ((f.toCnf cfg).after r)
      (f.eliminateArrows.toNnf.standardizeApart.run r).value.1 c ms := by
  obtain ⟨g, mid, k, hstages⟩ := to_cnf_stages (Attempt.yields_of_outcome h)
  obtain ⟨-, -, hapart, -⟩ := hstages.apart hreg
  obtain ⟨ms, hms, hcount, hfill⟩ :=
    hstages.skolemized.mints (hstages.ranges_inhabited hreg hf) 1
  obtain ⟨hconsts, hskolems⟩ := hstages.added_eq
  rw [Formula.to_nnf_eliminate_arrows, hstages.standardized]
  refine ⟨ms, ?_⟩
  exact {
    consts := hconsts.trans hms.consts
    skolems := hskolems.trans hms.skolems
    count := by rw [hconsts, hskolems, hms.length_eq, ← hcount, Nat.mul_one]
    openings := hms.openings
    distinct := fun m hm =>
      (hapart.universals (Formula.site_of_mem_openings (hms.openings m hm))).1
    arity := fun m hm => hms.arity hm
    arguments := fun m hm args => hstages.arguments hreg hf hms hfill hm
    replaced := fun a => hstages.replaced hreg hf hms.openings hfill }

open Sample in
/-- Two copies, and a function of `x` for each. -/
theorem to_cnf_dependencies_nested :
    nested.Registered registry ∧ nested.RangesInhabited ∧
      ∃ c ms, (nested.toCnf {}).outcome registry = .ok c ∧
        Dependencies registry ((nested.toCnf {}).after registry)
          (nested.eliminateArrows.toNnf.standardizeApart.run registry).value.1 c ms ∧
        (registry.addedSkolems ((nested.toCnf {}).after registry)).map (·.arity) = [1, 1] := by
  have hreg : nested.Registered registry := by decide
  have hf : nested.RangesInhabited := by decide
  obtain ⟨c, hcnf⟩ : ∃ c, (nested.toCnf {}).outcome registry = .ok c := ⟨_, rfl⟩
  obtain ⟨ms, hms⟩ := to_cnf_dependencies hreg hf hcnf
  exact ⟨hreg, hf, c, ms, hcnf, hms, by decide⟩

end Conversion

end Clausal
