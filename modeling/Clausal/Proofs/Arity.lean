import Clausal.Proofs.Conversion
import Clausal.Proofs.Operations

/-!
# Arities

A registry records how many arguments each Skolem function takes (`Registry.Records`), and a
predicate says it of itself. Formulas that fit in with this go on doing so when they are converted,
since each stage only puts fitting terms in place of variables (`Atom.Fits.map_bind`). So the normal
form of a formula is accounted for by the registry that the conversion leaves, and none of the
existential variables is left in it (`to_cnf_accounts`).
-/

namespace Clausal

open Variable (names)

variable {r mid r' : Registry} {s : SkolemSymbol} {cfg : Config} {us vs : List Variable}
  {scope : Scope}

/-! ## Recorded arities -/

namespace Registry

/-- The Skolem function is registered with this arity. -/
def Records (r : Registry) (s : SkolemSymbol) : Prop := r.skolemArity? s.name = some s.arity

instance : Decidable (r.Records s) := inferInstanceAs (Decidable (_ = _))

theorem records_iff :
    r.Records s ↔
      ∃ s', r.skolemSymbols.find? (·.name == s.name) = some s' ∧ s'.arity = s.arity := by
  rw [Records, skolemArity?, Option.map_eq_some_iff]

/-- Recorded arities stay when the registry grows. -/
theorem Records.mono (h : r.Records s) (hgrows : r.Grows r') : r'.Records s := by
  obtain ⟨s', hfind, harity⟩ := records_iff.1 h
  exact records_iff.2 ⟨s', hgrows.skolems.find?_eq_some hfind, harity⟩

/-- An added Skolem function is recorded, as no other one has its name. -/
theorem Grows.records (h : r.Grows r') (hs : s ∈ r.addedSkolems r') : r'.Records s := by
  have hnodup : ((r.addedSkolems r').map (·.name)).Nodup := (List.nodup_append.1 h.nodup).2.1
  have hadded : s.name ∈ r.addedNames r' := List.mem_append_right _ (List.mem_map_of_mem hs)
  have hold : r.skolemSymbols.find? (·.name == s.name) = none :=
    find_eq_none_iff_not_mem.2 fun hmem => h.fresh _ hadded (List.mem_append_right _ hmem)
  refine records_iff.2 ⟨s, ?_, rfl⟩
  rw [h.skolems_eq, List.find?_append, hold, Option.none_or]
  exact find_of_nodup hnodup hs

theorem Records.registered (h : r.Records s) : .skolem s.name ∈ r.symbols := by
  obtain ⟨s', hfind, -⟩ := records_iff.1 h
  refine List.mem_append_right _ (List.mem_map.2 ⟨s', List.mem_of_find?_eq_some hfind, ?_⟩)
  exact congrArg Symbol.skolem (by simpa using List.find?_some hfind)

end Registry

/-! ## Applications of Skolem functions -/

namespace Term

mutual

/-- The Skolem functions applied in a term, each with the number of arguments it has there. -/
def applications : Term → List SkolemSymbol
  | const _ | var _ => []
  | skolem name args => ⟨name, args.length⟩ :: applicationsAll args

/-- The Skolem functions applied in several terms. -/
def applicationsAll : List Term → List SkolemSymbol
  | [] => []
  | t :: ts => t.applications ++ applicationsAll ts

end

@[simp] theorem applications_all_eq {ts : List Term} :
    applicationsAll ts = ts.flatMap applications := by
  induction ts with
  | nil => rfl
  | cons t ts ih => simp [applicationsAll, ih]

/-- All Skolem functions in the term are applied to as many arguments as the registry records. -/
def Fits (r : Registry) (t : Term) : Prop := ∀ s ∈ t.applications, r.Records s

instance (t : Term) : Decidable (t.Fits r) :=
  inferInstanceAs (Decidable (∀ s ∈ t.applications, r.Records s))

variable {h : Variable → Term} {t : Term} {name : String} {args : List Term}

theorem fits_const {c : Constant} : (const c).Fits r := fun _ hs => absurd hs List.not_mem_nil

theorem fits_var {v : Variable} : (var v).Fits r := fun _ hs => absurd hs List.not_mem_nil

theorem fits_skolem :
    (skolem name args).Fits r ↔ r.Records ⟨name, args.length⟩ ∧ ∀ t ∈ args, t.Fits r := by
  simp only [Fits, applications, applications_all_eq, List.forall_mem_cons, List.mem_flatMap,
    forall_exists_index, and_imp]
  exact and_congr_right fun _ => ⟨fun h t ht s hs => h s t ht hs, fun h s t ht hs => h t ht s hs⟩

theorem Fits.mono (ht : t.Fits r) (hgrows : r.Grows r') : t.Fits r' :=
  fun s hs => (ht s hs).mono hgrows

/-- Terms that fit may be put in place of variables. -/
theorem Fits.bind (ht : t.Fits r) (hvars : ∀ v ∈ t.vars, (h v).Fits r) : (t.bind h).Fits r := by
  induction t using Term.induction with
  | hconst => exact fits_const
  | hvar v => exact hvars v (List.mem_singleton.2 rfl)
  | hskolem name args ih =>
      obtain ⟨hname, hargs⟩ := fits_skolem.1 ht
      simp only [vars, vars_all_eq, List.mem_flatMap] at hvars
      rw [Term.bind, bind_all_eq, fits_skolem, List.length_map, List.forall_mem_map]
      exact ⟨hname, fun t ht => ih t ht (hargs t ht) fun v hv => hvars v ⟨t, ht, hv⟩⟩

end Term

/-- The atom has as many terms as its predicate asks for, and its terms fit. -/
structure Atom.Fits (r : Registry) (a : Atom) : Prop where
  length : a.terms.length = a.predicate.arity
  terms : ∀ t ∈ a.terms, t.Fits r

instance (a : Atom) : Decidable (a.Fits r) :=
  decidable_of_iff (a.terms.length = a.predicate.arity ∧ ∀ t ∈ a.terms, t.Fits r)
    ⟨fun h => ⟨h.1, h.2⟩, fun h => ⟨h.1, h.2⟩⟩

namespace Atom.Fits

variable {a : Atom} {h : Variable → Term}

theorem mono (ha : a.Fits r) (hgrows : r.Grows r') : a.Fits r' :=
  ⟨ha.length, fun t ht => (ha.terms t ht).mono hgrows⟩

theorem map_bind (ha : a.Fits r) (hvars : ∀ v ∈ a.vars, (h v).Fits r) :
    (a.mapTerms (Term.bind h)).Fits r where
  length := (List.length_map _).trans ha.length
  terms := List.forall_mem_map.2 fun t ht => (ha.terms t ht).bind fun v hv =>
    hvars v (List.mem_flatMap.2 ⟨t, ht, hv⟩)

end Atom.Fits

/-- The terms put in place fit. -/
def Pending.Fits (r : Registry) (p : Pending) : Prop := ∀ xb ∈ p, xb.2.Fits r

namespace Pending

variable {p : Pending} {a : Atom}

theorem Fits.mono (hp : p.Fits r) (hgrows : r.Grows r') : p.Fits r' :=
  fun xb hxb => (hp xb hxb).mono hgrows

theorem Fits.below (hp : p.Fits r) : (p.below vs).Fits r := fun xb hxb => hp xb (below_subset hxb)

/-- Replacements by terms that fit leave an atom that fits. -/
theorem Fits.apply (hp : p.Fits r) (ha : a.Fits r) : (p.apply a).Fits r := by
  induction p generalizing a with
  | nil => exact ha
  | cons xb p ih =>
      obtain ⟨hb, hp⟩ := List.forall_mem_cons.1 hp
      refine ih hp (ha.map_bind fun v _ => ?_)
      split
      · exact hb
      · exact Term.fits_var

end Pending

namespace Formula

variable {f g c : Formula}

/-- All atoms of the formula fit. -/
def Fits (r : Registry) (f : Formula) : Prop := ∀ a ∈ f.atoms, a.Fits r

instance (f : Formula) : Decidable (f.Fits r) :=
  inferInstanceAs (Decidable (∀ a ∈ f.atoms, a.Fits r))

theorem Fits.mono (hf : f.Fits r) (hgrows : r.Grows r') : f.Fits r' :=
  fun a ha => (hf a ha).mono hgrows

theorem fits_atom {a : Atom} : (atom a).Fits r ↔ a.Fits r := List.forall_mem_singleton

theorem fits_binary {c : Connective} : (binary c f g).Fits r ↔ f.Fits r ∧ g.Fits r :=
  List.forall_mem_append

theorem Fits.signed_nnf {sign : Bool} (hf : f.Fits r) : (signedNnf sign f).Fits r :=
  fun a ha => hf a <|
    signed_nnf_subset (k := fun _ => []) (fun _ => rfl) (fun _ _ _ => rfl) (fun _ _ _ => rfl) ha

theorem atoms_drop : f.dropUniversals.atoms = f.atoms := by
  induction f with
  | atom => rfl
  | not _ ih => exact ih
  | binary _ _ _ ihf ihg => rw [dropUniversals, atoms, atoms, ihf, ihg]
  | quant q _ _ ih => cases q <;> exact ih

end Formula

/-- Renaming variables keeps a formula fitting. -/
theorem Renames.fits {f g : Formula} (h : Renames scope f g) (hf : f.Fits r) : g.Fits r := by
  induction h with
  | atom => exact Formula.fits_atom.2 ((Formula.fits_atom.1 hf).map_bind fun _ _ => Term.fits_var)
  | not _ ih => exact ih hf
  | binary _ _ ihf ihg => exact Formula.fits_binary.2 ((Formula.fits_binary.1 hf).imp ihf ihg)
  | quant _ _ _ _ ih => exact ih hf

/-! ## Skolemization -/

/-- A Skolem function is applied to as many variables as it is registered with. -/
theorem MintsTerm.fits {t : Term} (h : MintsTerm us r t r') : t.Fits r' := by
  cases h with
  | const => exact Term.fits_const
  | func name _ hadds =>
      refine Term.fits_skolem.2 ⟨?_, List.forall_mem_map.2 fun _ _ => Term.fits_var⟩
      rw [List.length_map]
      exact hadds.grows.records (hadds.skolems ▸ List.mem_singleton.2 rfl)

theorem MintsTerms.fits {p : Pending} (h : MintsTerms us vs r p r') : p.Fits r' := by
  intro xb hxb
  obtain ⟨v, -, r₁, r₂, -, ⟨-, hmints⟩, hafter⟩ :=
    h.exists_step_of_mem .refl .trans (fun _ _ _ _ hstep => hstep.2.grows) hxb
  exact hmints.fits.mono hafter

theorem copy_fits {choice : Pending} (h : choice ∈ copiesOf vs) : choice.Fits r := by
  intro xb hxb
  obtain ⟨-, -, -, c, -, hterm⟩ := copy_chooses h hxb
  exact hterm ▸ Term.fits_const

/-- A walk leaves a formula that fits, if the pending terms fit. -/
theorem Skolemizes.fits {p : Pending} {f g : Formula} (h : Skolemizes cfg us p f r g r')
    (hp : p.Fits r) (hf : f.Fits r) : g.Fits r' := by
  induction h using Skolemizes.induction with
  | atom | not => exact Formula.fits_atom.2 (hp.apply (Formula.fits_atom.1 hf))
  | binary _ hfirst hsecond _ ihf ihg =>
      obtain ⟨hleft, hright⟩ := Formula.fits_binary.1 hf
      have hgrows := hfirst.grows
      exact Formula.fits_binary.2 ⟨(ihf hp hleft).mono hsecond.grows,
        ihg (hp.mono hgrows) (hright.mono hgrows)⟩
  | all _ _ ih => exact ih hp.below hf
  | @ex us p vs f terms copies g r mid r' hterms hcopies hjoin =>
      refine Formula.disjunction_preserves (P := fun g => g.Fits r')
        (fun _ _ hf hg => Formula.fits_binary.2 ⟨hf, hg⟩) (fun g hg => ?_) hjoin
      obtain ⟨choice, hchoice, r₁, r₂, hbefore, ⟨-, ih⟩, hafter⟩ :=
        hcopies.exists_step_of_mem .refl .trans (fun _ _ _ _ ⟨h, _⟩ => h.grows) hg
      have hsince := hterms.grows.trans hbefore
      have hpending : (p.below vs ++ (terms ++ choice)).Fits r₁ :=
        List.forall_mem_append.2 ⟨hp.below.mono hsince,
          List.forall_mem_append.2 ⟨hterms.fits.mono hbefore, copy_fits hchoice⟩⟩
      exact (ih hpending (Formula.Fits.mono hf hsince)).mono hafter

/-! ## Existential variables -/

namespace Formula

variable {f : Formula}

/-- The variables that existential quantifiers bind. -/
def existentials : Formula → List Variable
  | atom _ => []
  | not f => f.existentials
  | binary _ f g => f.existentials ++ g.existentials
  | quant .all _ f => f.existentials
  | quant .ex vs f => vs ++ f.existentials

theorem existentials_subset : f.existentials ⊆ f.binders := by
  induction f with
  | atom => exact List.Subset.refl _
  | not _ ih => exact ih
  | binary _ _ _ ihf ihg =>
      exact List.append_subset.2
        ⟨List.subset_append_of_subset_left _ ihf, List.subset_append_of_subset_right _ ihg⟩
  | quant q vs _ ih =>
      cases q with
      | all => exact List.subset_append_of_subset_right _ ih
      | ex =>
          exact List.append_subset.2
            ⟨List.subset_append_left .., List.subset_append_of_subset_right _ ih⟩

/-- Under distinct names no universal variable has that of an existential one. -/
theorem not_universal_of_existential (hnodup : (names f.binders).Nodup) {name : String}
    (hname : name ∈ names f.existentials) : name ∉ names f.expandedUniversals := by
  have hbound {f : Formula} {name : String} (h : name ∈ names f.existentials) :
      name ∈ names f.binders := List.map_subset _ existentials_subset h
  have huniversal {f : Formula} {name : String} (h : name ∈ names f.expandedUniversals) :
      name ∈ names f.binders := List.map_subset _ expanded_universals_subset h
  induction f with
  | atom => cases hname
  | not _ ih => exact ih hnodup hname
  | binary _ f g ihf ihg =>
      rw [binders, names, List.map_append, List.nodup_append] at hnodup
      obtain ⟨hf, hg, hdisjoint⟩ := hnodup
      rw [expandedUniversals, Variable.mem_names_append, not_or]
      rcases Variable.mem_names_append.1 hname with h | h
      · exact ⟨ihf hf h, fun h' => hdisjoint _ (hbound h) _ (huniversal h') rfl⟩
      · exact ⟨fun h' => hdisjoint _ (huniversal h') _ (hbound h) rfl, ihg hg h⟩
  | quant q vs f ih =>
      rw [binders, names, List.map_append, List.nodup_append] at hnodup
      obtain ⟨-, hf, hdisjoint⟩ := hnodup
      cases q with
      | all =>
          rw [expandedUniversals, Variable.mem_names_append, not_or]
          exact ⟨fun h => hdisjoint _ h _ (hbound hname) rfl, ih hf hname⟩
      | ex =>
          -- each copy binds the same universal variables
          have hcopies : (quant .ex vs f).expandedUniversals ⊆ f.expandedUniversals :=
            flat_map_subset_iff.2 fun _ _ => List.Subset.refl _
          intro h
          replace h := List.map_subset _ hcopies h
          rcases Variable.mem_names_append.1 hname with h' | h'
          · exact hdisjoint _ h' _ (huniversal h) rfl
          · exact ih hf h' h

end Formula

/-- The normal form has the atoms of the formula without existentials. -/
theorem Stages.mem_atoms {f g k c : Formula} (h : Stages cfg f r g mid k c r') {a : Atom} :
    a ∈ c.atoms ↔ a ∈ k.atoms := by
  rw [Formula.mem_distribute (fun _ _ _ => rfl) h.distributed, Formula.atoms_drop]

/-- No variable of a normal form has the name of one that an existential of the formula with
variables apart binds. -/
theorem Stages.not_existential {f g k c : Formula} (h : Stages cfg f r g mid k c r')
    (hreg : f.Registered r) (hf : f.RangesInhabited) {v : Variable} (hv : v ∈ c.occurrences) :
    v.name ∉ names g.existentials := by
  intro hname
  obtain ⟨w, hw, heq⟩ := List.mem_map.1 hname
  have hnotfree : v.name ∉ f.freeNames :=
    heq ▸ h.bound_not_free hreg (Formula.existentials_subset hw)
  rcases Formula.free_or_bound (h.mem_occurrences.1 hv) with hfree | hbound
  · exact hnotfree (h.free_names_subset hreg hf hfree)
  · rw [h.skolemized.binders_eq] at hbound
    exact Formula.not_universal_of_existential (h.apart hreg).2.2.1.nodup hname hbound

/-! ## Whole conversions -/

/-- The registry holds the constants and variables of the formula, those of domains included, and
the formula fits in with the recorded arities. -/
structure Formula.Accounted (f : Formula) (r : Registry) : Prop where
  symbols : ∀ σ ∈ f.symbols, (∀ name, σ ≠ .skolem name) → σ ∈ r.symbols
  fits : f.Fits r

/-- A Skolem function that a term mentions is applied somewhere in it. -/
theorem Term.exists_application {t : Term} {name : String} (h : .skolem name ∈ t.symbols) :
    ∃ s ∈ t.applications, s.name = name := by
  induction t using Term.induction with
  | hconst => simp [Term.symbols] at h
  | hvar => simp [Term.symbols, Variable.symbols] at h
  | hskolem f args ih =>
      simp only [Term.symbols, symbols_all_eq, List.mem_cons, List.mem_flatMap] at h
      rw [applications, applications_all_eq]
      rcases h with h | ⟨t, ht, h⟩
      · exact ⟨_, List.mem_cons_self .., (Symbol.skolem.inj h).symm⟩
      · obtain ⟨s, hs, hname⟩ := ih t ht h
        exact ⟨s, List.mem_cons_of_mem _ (List.mem_flatMap.2 ⟨t, ht, hs⟩), hname⟩

/-- A Skolem function that a formula mentions stands at one of its atoms. -/
theorem Formula.exists_atom {f : Formula} {name : String} (h : .skolem name ∈ f.symbols) :
    ∃ a ∈ f.atoms, .skolem name ∈ a.symbols := by
  induction f with
  | atom a => exact ⟨a, List.mem_singleton.2 rfl, h⟩
  | not _ ih => exact ih h
  | binary _ f g ihf ihg =>
      rcases List.mem_append.1 h with h | h
      · obtain ⟨a, ha, hmem⟩ := ihf h
        exact ⟨a, List.mem_append_left _ ha, hmem⟩
      · obtain ⟨a, ha, hmem⟩ := ihg h
        exact ⟨a, List.mem_append_right _ ha, hmem⟩
  | quant _ vs f ih =>
      rcases List.mem_append.1 h with h | h
      · -- a binder mentions variables and constants only
        simp [Variable.symbols] at h
      · exact ih h

/-- Skolem functions with a recorded arity are registered, so all symbols of the formula are. -/
theorem Formula.Accounted.registered {f : Formula} (h : f.Accounted r) : f.Registered r := by
  intro σ hσ
  by_cases hskolem : ∃ name, σ = .skolem name
  · obtain ⟨name, rfl⟩ := hskolem
    obtain ⟨a, ha, hmem⟩ := Formula.exists_atom hσ
    obtain ⟨t, ht, hmem⟩ := List.mem_flatMap.1 hmem
    obtain ⟨s, hs, rfl⟩ := Term.exists_application hmem
    exact ((h.fits a ha).terms t ht s hs).registered
  · exact h.symbols σ hσ fun name heq => hskolem ⟨name, heq⟩

/-- The registry that a conversion leaves accounts for the normal form, and the variables of
existentials are gone. -/
theorem to_cnf_accounts {f c : Formula} (hf : f.Accounted r) (hranges : f.RangesInhabited)
    (h : (f.toCnf cfg).outcome r = .ok c) :
    c.Accounted ((f.toCnf cfg).after r) ∧ ∀ v ∈ c.binders ++ c.occurrences,
      v.name ∉ names (f.eliminateArrows.toNnf.standardizeApart.run r).value.1.existentials := by
  obtain ⟨g, mid, k, hstages⟩ := to_cnf_stages (Attempt.yields_of_outcome h)
  have hreg := hf.registered
  have hapart := hstages.apart hreg
  have hfirst := standardize_apart_grows hstages.standardized
  have hg : g.Fits mid := hapart.1.fits (Formula.Fits.signed_nnf (hf.fits.mono hfirst))
  have hk := hstages.skolemized.fits (fun _ h => absurd h List.not_mem_nil) hg
  have hsymbols := hstages.symbols_subset
    (List.Subset.trans hreg hstages.grows.symbols_subset) hstages.grows.added_symbols_subset
  refine ⟨⟨fun σ hσ _ => hsymbols hσ, fun a ha => hk a (hstages.mem_atoms.1 ha)⟩, fun v hv => ?_⟩
  have hempty := Formula.contains_quantifier_distribute hstages.distributed
  rw [Formula.binders_eq_nil hempty, List.nil_append] at hv
  rw [Formula.to_nnf_eliminate_arrows, hstages.standardized]
  exact hstages.not_existential hreg hranges hv

namespace Sample

/-- A formula with a Skolem function of an earlier conversion. -/
def extended : Formula :=
  .all [x] (.ex [y, p] (holding "R" [.skolem "g" [.var x], .var y, .var p]))

/-- The registry that the earlier conversion left. -/
def extendedRegistry : Registry := { registry with skolemSymbols := [⟨"g", 1⟩] }

end Sample

open Sample in
theorem to_cnf_accounts_extended :
    extended.Accounted extendedRegistry ∧ extended.RangesInhabited ∧
    ∃ c, (extended.toCnf {}).outcome extendedRegistry = .ok c ∧
      c.Accounted ((extended.toCnf {}).after extendedRegistry) ∧
      ∀ v ∈ c.binders ++ c.occurrences, v.name ∉ names (extended.eliminateArrows.toNnf
        |>.standardizeApart.run extendedRegistry).value.1.existentials := by
  have hreg : extended.Registered extendedRegistry := by decide
  have hfits : extended.Fits extendedRegistry := by decide
  have hf : extended.Accounted extendedRegistry := ⟨fun σ hσ _ => hreg hσ, hfits⟩
  have hranges : extended.RangesInhabited := by decide
  exact ⟨hf, hranges, _, rfl, to_cnf_accounts hf hranges rfl⟩

end Clausal
